import Oin17.Chals.Parse

namespace Oin17.Chals
open Loop Memory Utils

/-- The loop of `parse_toks`, with the function it calls on a pair as a parameter. -/
def feed {σ : Type} (call : Buf → Buf → σ → Option (Int × σ)) (buf : Buf) :
    List Token → Toks → σ → Option (Int × σ)
  | [], _, st => some (0, st)
  | t :: ts, s, st =>
    if t.type = .array ∨ t.type = .undefined then some (-1, st)
    else (s.take buf t).bind fun s =>
      if s.d = 2 then
        (call s.k s.v st).bind fun (r, st) =>
          if r ≠ 0 then some (-1, st) else feed call buf ts { s with d := 0 } st
      else feed call buf ts s st

/-- Calling a function on pairs in order, up to the first call that fails. -/
def callAll {σ : Type} (call : Buf → Buf → σ → Option (Int × σ)) :
    List (Buf × Buf) → σ → Option (Int × σ)
  | [], st => some (0, st)
  | (k, v) :: ps, st => (call k v st).bind fun (r, st) =>
    if r ≠ 0 then some (-1, st) else callAll call ps st

/-- The keys and values that the tokens pair up. There are none when a token is of
a type that is not expected, or does not fit its buffer. -/
def pairs (buf : Buf) : List Token → Toks → Option (List (Buf × Buf))
  | [], _ => some []
  | t :: ts, s =>
    if t.type = .array ∨ t.type = .undefined then none
    else (s.take buf t).bind fun s =>
      if s.d = 2 then (pairs buf ts { s with d := 0 }).map fun ps => (s.k, s.v) :: ps
      else pairs buf ts s

section Feed
variable {σ : Type} {call : Buf → Buf → σ → Option (Int × σ)} {buf : Buf} {s : Toks}

theorem take_chal (buf : Buf) (s : Toks) (t : Token) (chal : Chal) :
    { s with chal := chal }.take buf t = (s.take buf t).map fun s => { s with chal := chal } := by
  unfold Toks.take
  cases t.type with
  | string =>
    dsimp only
    split
    · cases tokcpy buf s.k 64 t <;> rfl
    · cases tokcpy buf s.v 256 t <;> rfl
  | primitive => cases tokcpy buf s.v 256 t <;> rfl
  | undefined | object | array => rfl

theorem parseToks_feed (buf : Buf) (ts : List Token) (s : Toks) (chal : Chal) :
    parseToks buf ts { s with chal := chal } = feed parseTok buf ts s chal := by
  induction ts generalizing s chal with
  | nil => rfl
  | cons t ts ih =>
    rw [parseToks, feed]
    split
    · rfl
    · rw [take_chal]
      cases s.take buf t with
      | none => rfl
      | some s =>
        simp only [Option.map_some, Option.bind_some]
        split
        · cases parseTok s.k s.v chal with
          | none => rfl
          | some r =>
            simp only [Option.bind_some]
            split
            · rfl
            · exact ih { s with d := 0 } r.2
        · exact ih s chal

theorem feed_pairs (h : pairs buf ts s = some ps) (st : σ) :
    feed call buf ts s st = callAll call ps st := by
  induction ts generalizing s ps st with
  | nil =>
    obtain rfl := Option.some.inj h
    rfl
  | cons t ts ih =>
    rw [pairs] at h
    rw [feed]
    split at h
    · cases h
    next htype =>
    rw [if_neg htype]
    obtain ⟨s', hs', h⟩ := Option.bind_eq_some_iff.mp h
    rw [hs', Option.bind_some]
    split at h
    · next hd =>
      obtain ⟨ps', hps', rfl⟩ := Option.map_eq_some_iff.mp h
      rw [if_pos hd, callAll]
      apply congrArg
      funext r
      exact if_congr Iff.rfl rfl (ih hps' r.2)
    · next hd =>
      rw [if_neg hd]
      exact ih h st

end Feed

end Oin17.Chals
