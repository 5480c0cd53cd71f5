import Mathlib.Algebra.Ring.Nat

/-!
# Sockets and TCP (`net.inc`)

What is sent is kept in the send buffer of its socket, and `tcp_flush_pending` sends it again when
its timer has run out. A segment counts as sent when it is handed to `ip_send`; the clock stands
still during a call.
-/

namespace Mellivora

/-- `SOCK_BUF_SIZE` -/
def sockBufSize : Nat := 8192

/-- `TCP_FIN`. -/
def tcpFin : UInt8 := 0x01
/-- `TCP_SYN`. -/
def tcpSyn : UInt8 := 0x02
/-- `TCP_PSH`. -/
def tcpPsh : UInt8 := 0x08
/-- `TCP_ACK`. -/
def tcpAck : UInt8 := 0x10

/-- `SOCK_STATE`, the state of a TCP socket -/
inductive TcpState
  | closed | listen | synSent | synRcvd | established | finWait1 | finWait2 | closeWait | closing |
    lastAck | timeWait
  deriving DecidableEq

/-- The fields of a `net_sock_table` entry that sending reads or changes. -/
structure Sock where
  state : TcpState := .closed
  seq : UInt32 := 0
  ack : UInt32 := 0
  sendBuf : Nat := 0
  /-- the memory from `SOCK_SEND_BUF` on -/
  send : Nat → UInt8 := fun _ => 0
  pending : UInt8 := 0
  retxSeq : UInt32 := 0
  retxLen : UInt32 := 0
  retxTimer : UInt32 := 0
  retxCount : UInt32 := 0

/-! ## Sending -/

/-- A segment that a socket sends. -/
structure SentSegment where
  seq : UInt32
  ack : UInt32
  flags : UInt8
  data : List UInt8 := []

/-- `tcp_send_flags`: a segment without data. SYN and FIN take a sequence number each. -/
def tcpSendFlags (flags : UInt8) (k : Sock) : Sock × SentSegment :=
  let step (flag : UInt8) : UInt32 := if flags &&& flag ≠ 0 then 1 else 0
  ({ k with seq := k.seq + step tcpSyn + step tcpFin }, { seq := k.seq, ack := k.ack, flags })

/-- `tcp_send_data`: the data are kept for a retransmission, 300 ticks from now, if the socket has a
buffer. -/
def tcpSendData (now : UInt32) (data : List UInt8) (k : Sock) : Sock × SentSegment :=
  let len := UInt32.ofNat data.length
  let saved :=
    if k.sendBuf = 0 then k
    else
      { k with
        send := fun i => if i < min data.length sockBufSize then data.getD i 0 else k.send i
        retxSeq := k.seq, retxLen := len, retxCount := 0, retxTimer := now + 300 }
  ({ saved with seq := k.seq + len },
    { seq := k.seq, ack := k.ack, flags := tcpPsh ||| tcpAck, data })

/-- `tcp_flush_pending`, on one socket: flags that wait are sent, and data whose timer has run out
are sent again with twice the time, three times at most. The stored time is set anew after
`tcp_send_data`, which has set the count back to zero. -/
def tcpFlushPending (now : UInt32) (k : Sock) : Sock × List SentSegment :=
  let (k, flags) :=
    if k.pending = 0 then (k, [])
    else
      let (k', flags) := tcpSendFlags k.pending { k with pending := 0 }
      (k', [flags])
  if k.retxLen = 0 ∨ k.state ≠ .established ∨ now < k.retxTimer then (k, flags)
  else if 3 ≤ k.retxCount.toInt32 then ({ k with retxLen := 0 }, flags)
  else
    let k := { k with retxCount := k.retxCount + 1, seq := k.retxSeq }
    if k.sendBuf = 0 then (k, flags)
    else
      let (k, segment) := tcpSendData now ((List.range k.retxLen.toNat).map k.send) k
      ({ k with retxTimer := now + 300 <<< k.retxCount }, flags ++ [segment])

/-- Of the ticks at which a socket is flushed, those at which it sends data again. -/
def Sock.retransmits (k : Sock) : (flushes : List Nat) → List Nat
  | [] => []
  | now :: flushes =>
    let (k', sent) := tcpFlushPending (.ofNat now) k
    (sent.filter (·.data ≠ [])).map (fun _ => now) ++ k'.retransmits flushes

/-- At most three retransmissions in all: `n` so far, the last transmission at `last`, and each
after twice the time of the one before. -/
def BacksOff : (last n : Nat) → List Nat → Prop
  | _, _, [] => True
  | last, n, now :: rest => n < 3 ∧ last + 300 * 2 ^ n ≤ now ∧ BacksOff now (n + 1) rest

instance : (last n : Nat) → (l : List Nat) → Decidable (BacksOff last n l)
  | _, _, [] => .isTrue trivial
  | _, n, now :: rest =>
    have := instDecidableBacksOff now (n + 1) rest
    inferInstanceAs (Decidable (_ ∧ _ ∧ _))

/-- A flush finds the first timeout not yet over, or it comes when a retransmission is due. -/
def FlushedInTime : (last n : Nat) → (flushes : List Nat) → Prop
  | _, _, [] => True
  | last, n, now :: rest =>
    if now % 2 ^ 32 < (last + 300) % 2 ^ 32 then FlushedInTime last n rest
    else n < 3 ∧ last + 300 * 2 ^ n ≤ now ∧ FlushedInTime now (n + 1) rest

end Mellivora
