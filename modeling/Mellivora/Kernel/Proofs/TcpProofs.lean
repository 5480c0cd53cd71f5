import Mellivora.Kernel.Tcp

/-!
# Retransmissions

`tcp_send_data` clears the count of retransmissions, and `tcp_flush_pending` sends again through it,
so that every retransmission leaves the socket as the first transmission did.
-/

namespace Mellivora

open List

/-- A segment was sent last at `last`, and its timer runs. -/
structure Outstanding (last : Nat) (k : Sock) : Prop where
  state : k.state = .established
  buf : k.sendBuf ≠ 0
  len : k.retxLen ≠ 0
  count : k.retxCount = 0
  timer : k.retxTimer = .ofNat (last + 300)

section Retransmissions

variable {k : Sock} {last now n : Nat}

/-- What is sent is outstanding. -/
theorem outstanding_tcpSendData (hstate : k.state = .established) (hbuf : k.sendBuf ≠ 0)
    {data : List UInt8} (hlen : UInt32.ofNat data.length ≠ 0) :
    Outstanding now (tcpSendData (.ofNat now) data k).1 := by
  unfold tcpSendData
  simp only [if_neg hbuf]
  refine ⟨hstate, hbuf, hlen, rfl, ?_⟩
  rw [UInt32.ofNat_add]
  rfl

/-- A flush sends again what is outstanding if 300 ticks are over, however often it has been
sent. -/
theorem Outstanding.flush (h : Outstanding last k) (now : Nat) :
    ∃ k' sent, tcpFlushPending (.ofNat now) k = (k', sent) ∧
      if now % 2 ^ 32 < (last + 300) % 2 ^ 32 then Outstanding last k' ∧
        sent.filter (·.data ≠ []) = []
      else Outstanding now k' ∧ (sent.filter (·.data ≠ [])).length = 1 := by
  unfold tcpFlushPending
  -- Pending flags go first. They carry no data, and change nothing but the next sequence number.
  generalize hfirst : (if k.pending = 0 then (k, []) else _ : Sock × List SentSegment) = first
  obtain ⟨k1, flags⟩ := first
  have hk1 : Outstanding last k1 ∧ flags.filter (·.data ≠ []) = [] := by
    split at hfirst
    · cases hfirst
      exact ⟨h, rfl⟩
    · cases hfirst
      exact ⟨{ h with }, rfl⟩
  obtain ⟨h1, hflags⟩ := hk1
  dsimp only
  have hlt : UInt32.ofNat now < k1.retxTimer ↔ now % 2 ^ 32 < (last + 300) % 2 ^ 32 := by
    rw [h1.timer, UInt32.lt_iff_toNat_lt, UInt32.toNat_ofNat', UInt32.toNat_ofNat']
  by_cases hearly : now % 2 ^ 32 < (last + 300) % 2 ^ 32
  · rw [if_pos (Or.inr (Or.inr (hlt.mpr hearly)))]
    exact ⟨k1, flags, rfl, by rw [if_pos hearly]; exact ⟨h1, hflags⟩⟩
  have hgo : ¬ (k1.retxLen = 0 ∨ k1.state ≠ .established ∨ UInt32.ofNat now < k1.retxTimer) := by
    rintro (hlen | hstate | hnow)
    · exact h1.len hlen
    · exact hstate h1.state
    · exact hearly (hlt.mp hnow)
  rw [if_neg hgo, if_neg (by rw [h1.count]; decide), if_neg h1.buf]
  refine ⟨_, _, rfl, ?_⟩
  rw [if_neg hearly]
  generalize hdata : (range k1.retxLen.toNat).map k1.send = data
  have hlen : UInt32.ofNat data.length ≠ 0 := by
    rw [← hdata, length_map, length_range, UInt32.ofNat_toNat]
    exact h1.len
  have hsent : Outstanding now (tcpSendData (.ofNat now) data
      { k1 with retxCount := k1.retxCount + 1, seq := k1.retxSeq }).1 := by
    apply outstanding_tcpSendData
    · exact h1.state
    · exact h1.buf
    · exact hlen
  refine ⟨{ hsent with timer := ?_ }, ?_⟩
  · rw [hsent.count, UInt32.ofNat_add]
    rfl
  · rw [filter_append, hflags, nil_append, filter_cons_of_pos]
    · rfl
    · refine decide_eq_true fun hnil => hlen ?_
      rw [show data = [] from hnil]
      rfl

/-- When the retransmissions back off. -/
theorem Outstanding.backsOff_iff (h : Outstanding last k) (n : Nat) (flushes : List Nat) :
    BacksOff last n (k.retransmits flushes) ↔ FlushedInTime last n flushes := by
  induction flushes generalizing last n k with
  | nil => exact Iff.rfl
  | cons now flushes ih =>
  obtain ⟨k', sent, hrun, hflush⟩ := h.flush now
  rw [Sock.retransmits, FlushedInTime, hrun]
  dsimp only
  split at hflush
  · rw [if_pos ‹_›, hflush.2]
    exact ih hflush.1 n
  · obtain ⟨hout, hone⟩ := hflush
    obtain ⟨segment, hsent⟩ := length_eq_one_iff.mp hone
    rw [if_neg ‹_›, hsent]
    exact and_congr_right fun _ => and_congr_right fun _ => ih hout (n + 1)

/-- A segment is retransmitted as it should be exactly in the runs in which no flush comes between
the first timeout and the time at which the next retransmission is due. -/
theorem retransmits_backsOff_iff (k : Sock) (hstate : k.state = .established) (hbuf : k.sendBuf ≠ 0)
    (data : List UInt8) (hlen : UInt32.ofNat data.length ≠ 0) (now : Nat) (flushes : List Nat) :
    BacksOff now 0 ((tcpSendData (.ofNat now) data k).1.retransmits flushes) ↔
    FlushedInTime now 0 flushes :=
  (outstanding_tcpSendData hstate hbuf hlen).backsOff_iff 0 flushes

end Retransmissions

/-- A connection that has a send buffer. -/
def openSock : Sock := { state := .established, sendBuf := 4096 }

/-- One segment, flushed three times. -/
theorem retransmits_backsOff_once :
    BacksOff 0 0 ((tcpSendData (.ofNat 0) [1] openSock).1.retransmits [100, 300, 500]) ↔
      FlushedInTime 0 0 [100, 300, 500] :=
  retransmits_backsOff_iff openSock rfl (by decide) [1] (by decide) 0 [100, 300, 500]

/-- Flushes as far apart as the first timeout. -/
theorem retransmits_four_times :
    (tcpSendData (.ofNat 0) [1] openSock).1.retransmits [300, 600, 900, 1200] =
      [300, 600, 900, 1200] ∧
      ¬ BacksOff 0 0
      ((tcpSendData (.ofNat 0) [1] openSock).1.retransmits [300, 600, 900, 1200]) := by
  decide +kernel

end Mellivora
