import Mellivora.Kernel.Sett
import Mellivora.Lib.Glob

/-!
# The wildcard matcher of the shell

`wildcard_match` compares a pattern and a candidate letter by letter. It remembers only the last `*`
it met, in `wild_star_pat` and `wild_star_txt`; on a mismatch it lets that star stand for one letter
more and tries the rest of the pattern again.
-/

namespace Mellivora

/-- ESI and EDI, what is left of the pattern and of the candidate, and what the two words remember:
the pattern behind the last star and the candidate where that star's next attempt starts. -/
structure WildcardState where
  pat : Text
  txt : Text
  star : Option (Text × Text)

/-- Where a turn of `.wm_loop` goes: around again, or to `.wm_match` (carry set) or `.wm_fail`. -/
inductive WildcardTurn where
  | loop (s : WildcardState)
  | done (cf : Bool)

/-- `.wm_backtrack`: the last star takes one more character. -/
def wmBacktrack (s : WildcardState) : WildcardTurn :=
  match s.star with
  | none => .done false
  | some (_, []) => .done false
  | some (p, _ :: t) => .loop ⟨p, t, some (p, t)⟩

/-- One turn of `.wm_loop`. -/
def wmLoop (s : WildcardState) : WildcardTurn :=
  match s.pat, s.txt with
  | [], [] => .done true
  | [], _ :: _ => wmBacktrack s
  | al :: p, t =>
    if al = 42 then .loop ⟨p, t, some (p, t)⟩
    else
      match t with
      | [] => wmBacktrack s
      | bl :: t =>
        if al = 63 then .loop ⟨p, t, s.star⟩
        else if al = bl then .loop ⟨p, t, s.star⟩
        else wmBacktrack s

/-- The loop of `wildcard_match`, for at most `n` turns. -/
def wmRun : Nat → WildcardState → Option Bool
  | 0, _ => none
  | n + 1, s =>
    match wmLoop s with
    | .loop s => wmRun n s
    | .done cf => some cf

/-- The carry flag `wildcard_match` returns with, if it does within so many turns. -/
def wildcardMatch (turns : Nat) (pattern candidate : Text) : Option Bool :=
  wmRun turns ⟨pattern, candidate, none⟩

/-- What a character of a pattern means: `*`, `?`, or itself. -/
def globToken (c : UInt8) : Glob.Token UInt8 :=
  if c = 42 then .many else if c = 63 then .one else .lit c

/-- The candidate is one of the strings the pattern describes. -/
def GlobMatches (pattern candidate : Text) : Prop := Glob.Matches (pattern.map globToken) candidate

end Mellivora
