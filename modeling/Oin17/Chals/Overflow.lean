import Oin17.Chals.Fields

namespace Oin17.Chals
open Loop Memory Utils

/-- The bytes of a token, without the NUL that `tokcpy` puts behind them. -/
def Token.size (t : Token) : Nat := t.stop - t.start

/-- A destination after `tokcpy`, were it large enough. -/
def Token.copy (buf dst : Buf) (t : Token) : Buf :=
  Function.update (store dst 0 (load buf t.start t.size)) t.size 0

/-- A token that is copied is shorter than its destination. -/
def TokenFits (d : Nat) (t : Token) : Prop :=
  (t.type = .string → t.size < if d = 0 then 64 else 256) ∧ (t.type = .primitive → t.size < 256)

/-- The key, the value and their count after a token that fits. -/
def Toks.put (buf : Buf) (s : Toks) (t : Token) : Toks :=
  match t.type with
  | .string =>
    if s.d = 0 then { s with k := t.copy buf s.k, d := 1 }
    else { s with v := t.copy buf s.v, d := 2 }
  | .primitive => { s with v := t.copy buf s.v, d := s.d + 1 }
  | _ => { s with d := 0 }

/-- The hash of a pair fits `lhash`, and its prefix, up to where `hex2bin` stops, `pfix`. -/
structure PairFits (key val : Buf) : Prop where
  pfix : field (cstr key 64) = some .pfix → ∃ n ≤ sha256Len, HexLen val n
  lhash : field (cstr key 64) = some .lhash → (cstr val 256).length ≤ 2 * sha256Len

/-- The name of a challenge that is known. Another one ends the parsing. -/
def Known (key val : Buf) : Prop :=
  field (cstr key 64) = some .type → chalType (cstr val 256) ≠ none

/-- The tokens and the pairs that they make fit, up to what ends the parsing. -/
def TextsFit (buf : Buf) : List Token → Toks → Prop
  | [], _ => True
  | t :: ts, s =>
    t.type = .array ∨ t.type = .undefined ∨ TokenFits s.d t ∧
      if (s.put buf t).d = 2 then
        PairFits (s.put buf t).k (s.put buf t).v ∧
          (Known (s.put buf t).k (s.put buf t).v → TextsFit buf ts { s.put buf t with d := 0 })
      else TextsFit buf ts (s.put buf t)

/-- The string in `lhash` ends inside it. -/
def Terminated (c : Chal) : Prop := ∃ i < 2 * sha256Len + 1, c.lhash i = 0

/-- What was right about the two arrays of a challenge still is. -/
structure Kept (c d : Chal) : Prop where
  plen : c.plen ≤ sha256Len → d.plen ≤ sha256Len
  lhash : Terminated c → Terminated d

theorem Kept.refl (c : Chal) : Kept c c := ⟨id, id⟩

theorem Kept.trans (h : Kept c d) (h' : Kept d e) : Kept c e :=
  ⟨fun hc => h'.plen (h.plen hc), fun hc => h'.lhash (h.lhash hc)⟩

section Pair
variable {key val : Buf} {c d : Chal}

theorem taken_fits : Taken key val ↔ Known key val ∧ PairFits key val :=
  ⟨fun h => ⟨h.1, h.2.1, h.2.2⟩, fun h => ⟨h.1, h.2.1, h.2.2⟩⟩

/-- A pair is without a result where it writes outside of its field. -/
theorem parsed_fits (c : Chal) : (∃ r d, Parsed key val c r d) ↔ PairFits key val := by
  constructor
  · rintro ⟨r, d, h⟩
    cases h with
    | left hk | size hk | nblks hk | type hk | unknown hk | id hk | other hk =>
      exact ⟨fun he => by simp [hk] at he, fun he => by simp [hk] at he⟩
    | pfix hk hn hle => exact ⟨fun _ => ⟨_, hle, hn⟩, fun he => by simp [hk] at he⟩
    | lhash hk hle => exact ⟨fun he => by simp [hk] at he, fun _ => hle⟩
  · intro h
    by_cases hk : Known key val
    · obtain ⟨d, hd⟩ := (taken_iff c).mp (taken_fits.mpr ⟨hk, h⟩)
      exact ⟨0, d, hd⟩
    · obtain ⟨ht, hn⟩ := Classical.not_imp.mp hk
      exact ⟨-1, c, .unknown ht (not_not.mp hn)⟩

theorem Parsed.zero_iff (h : Parsed key val c r d) : r = 0 ↔ Known key val := by
  cases h with
  | left hk | size hk | nblks hk | pfix hk | id hk | lhash hk | other hk =>
    exact iff_of_true rfl fun he => by simp [hk] at he
  | type hk hv => exact iff_of_true rfl fun _ => by simp [hv]
  | unknown hk hv => exact iff_of_false (by decide) fun h => h hk hv

theorem Parsed.kept (h : Parsed key val c r d) : Kept c d := by
  cases h with
  | left | size | nblks | type | unknown | id | other => exact ⟨fun h => h, fun h => h⟩
  | pfix hk hn hle => exact ⟨fun _ => hle, fun h => h⟩
  | lhash hk hle =>
    refine ⟨fun h => h, fun _ => ⟨(cstr val 256).length, Nat.lt_succ_of_le hle, ?_⟩⟩
    have hz := (holds_store c.lhash (cstr val 256)).2
    rwa [Nat.zero_add] at hz

end Pair

section Copies
variable {buf : Buf} {s s' : Toks} {t : Token} {ts : List Token} {c d : Chal}

theorem tokcpy_iff (hle : t.start ≤ t.stop) {dst b : Buf} :
    tokcpy buf dst n t = some b ↔ t.size < n ∧ t.copy buf dst = b := by
  unfold tokcpy
  by_cases hn : t.stop - t.start < n
  · rw [if_pos ⟨hle, hn⟩, Option.some_inj]
    exact (and_iff_right hn).symm
  · rw [if_neg fun h => hn h.2]
    exact iff_of_false (fun h => by cases h) fun h => hn h.1

theorem take_iff (hle : t.start ≤ t.stop) :
    s.take buf t = some s' ↔ TokenFits s.d t ∧ s.put buf t = s' := by
  unfold Toks.take TokenFits Toks.put
  cases t.type with
  | string =>
    by_cases hd : s.d = 0
    · simp [hd, Option.map_eq_some_iff, tokcpy_iff hle, and_assoc]
    · simp [hd, Option.map_eq_some_iff, tokcpy_iff hle, and_assoc]
  | primitive => simp [Option.map_eq_some_iff, tokcpy_iff hle, and_assoc]
  | undefined | object | array => simp

/-- The call on a pair, with what follows it if the name is known. -/
theorem call_fits_iff {rest : Chal → Option (Int × Chal)} {P : Prop}
    (hrest : ∀ e, (∃ r d, rest e = some (r, d)) ↔ P) (key val : Buf) (c : Chal) :
    (∃ r d, ((parseTok key val c).bind fun (r, e) =>
      if r ≠ 0 then some (-1, e) else rest e) = some (r, d)) ↔
    (∃ r d, Parsed key val c r d) ∧ (Known key val → P) := by
  cases hp : parseTok key val c with
  | none =>
    refine iff_of_false ?_ ?_
    · rintro ⟨r, d, h⟩
      cases h
    · rintro ⟨⟨r, d, h⟩, -⟩
      rw [parseTok_iff.mpr h] at hp
      cases hp
  | some q =>
    obtain ⟨r, e⟩ := q
    have hparsed := parseTok_iff.mp hp
    rw [Option.bind_some, and_iff_right ⟨r, e, hparsed⟩, ← hparsed.zero_iff]
    dsimp only
    by_cases hr : r = 0
    · rw [if_neg (not_not.mpr hr), hrest e]
      exact ⟨fun h _ => h, fun h => h hr⟩
    · rw [if_pos hr]
      exact iff_of_true ⟨-1, e, rfl⟩ fun h => absurd h hr

theorem feed_fits_iff (hts : ∀ t ∈ ts, t.start ≤ t.stop) (s : Toks) (c : Chal) :
    (∃ r d, feed parseTok buf ts s c = some (r, d)) ↔ TextsFit buf ts s := by
  induction ts generalizing s c with
  | nil => exact iff_of_true ⟨0, c, rfl⟩ trivial
  | cons t ts ih =>
    rw [List.forall_mem_cons] at hts
    rw [feed, TextsFit, ← or_assoc]
    by_cases htype : t.type = .array ∨ t.type = .undefined
    · rw [if_pos htype]
      exact iff_of_true ⟨-1, c, rfl⟩ (Or.inl htype)
    rw [if_neg htype, or_iff_right htype]
    by_cases hfit : TokenFits s.d t
    · rw [(take_iff hts.1).mpr ⟨hfit, rfl⟩, Option.bind_some, and_iff_right hfit]
      split
      · rw [← parsed_fits c]
        exact call_fits_iff (fun e => ih hts.2 _ e) _ _ c
      · exact ih hts.2 _ c
    · have hnone : s.take buf t = none :=
        Option.eq_none_iff_forall_ne_some.mpr fun s' hs' => hfit ((take_iff hts.1).mp hs').1
      rw [hnone]
      refine iff_of_false ?_ fun h => hfit h.1
      rintro ⟨r, d, h⟩
      cases h

theorem feed_kept (h : feed parseTok buf ts s c = some (r, d)) : Kept c d := by
  induction ts generalizing s c with
  | nil =>
    obtain ⟨-, rfl⟩ := Prod.mk.inj (Option.some.inj h)
    exact Kept.refl c
  | cons t ts ih =>
    rw [feed] at h
    split at h
    · obtain ⟨-, rfl⟩ := Prod.mk.inj (Option.some.inj h)
      exact Kept.refl c
    obtain ⟨s', -, h⟩ := Option.bind_eq_some_iff.mp h
    split at h
    · obtain ⟨⟨q, e⟩, he, h⟩ := Option.bind_eq_some_iff.mp h
      have hkept := (parseTok_iff.mp he).kept
      dsimp only at h
      split at h
      · obtain ⟨-, rfl⟩ := Prod.mk.inj (Option.some.inj h)
        exact hkept
      · exact hkept.trans (ih h)
    · exact ih h

end Copies

/-- All that is written stays in its array. -/
def Inside (jsmn : Jsmn) (buf : Buf) (len : Nat) (k v : Buf) (chal : Chal) : Prop :=
  ∃ r d, chalParse jsmn buf len k v chal = some (r, d) ∧ Kept chal d

/-- The lengths of the texts are what decides, which nothing checks. -/
theorem parse_inside_iff (jsmn : Jsmn) (buf : Buf) (len : Nat) (k v : Buf) (chal : Chal)
    (hjsmn : ∀ toks, jsmn (load buf 0 len) = some toks →
      ∀ t ∈ toks, t.start ≤ t.stop ∧ t.stop ≤ len) :
    Inside jsmn buf len k v chal ↔ ∀ toks, jsmn (load buf 0 len) = some toks →
      TextsFit buf (toks.drop 1) { d := 0, k := k, v := v, chal := chal } := by
  unfold Inside chalParse
  cases ht : jsmn (load buf 0 len) with
  | none => exact iff_of_true ⟨-1, chal, rfl, Kept.refl chal⟩ fun toks h => by cases h
  | some toks =>
    have hbounds : ∀ t ∈ toks.drop 1, t.start ≤ t.stop :=
      fun t hmem => (hjsmn toks ht t (List.mem_of_mem_drop hmem)).1
    have hfits : (∃ r d, feed parseTok buf (toks.drop 1) _ chal = some (r, d)) ↔ _ :=
      feed_fits_iff hbounds { d := 0, k := k, v := v, chal := chal } chal
    have hrun := parseToks_feed buf (toks.drop 1) { d := 0, k := k, v := v, chal := chal } chal
    dsimp only at hrun ⊢
    rw [hrun]
    constructor
    · rintro ⟨r, d, h, -⟩ toks' he
      obtain rfl := Option.some.inj he
      exact hfits.mp ⟨r, d, h⟩
    · intro h
      obtain ⟨r, d, hd⟩ := hfits.mpr (h toks rfl)
      exact ⟨r, d, hd, feed_kept hd⟩

/-- A message with a hash of `n` zeros, and what jsmn finds in it. -/
def hashMessage (n : Nat) : Buf :=
  store (fun _ => 0) 0
    (bytes "\x7b\"last_solution_hash\":\"" ++ List.replicate n 48 ++ bytes "\"\x7d")

def hashToks (n : Nat) : List Token :=
  [⟨.object, 0, 25 + n⟩, ⟨.string, 2, 20⟩, ⟨.string, 23, 23 + n⟩]

theorem parse_inside_iff_hash :
    Inside (fun _ => some (hashToks 64)) (hashMessage 64) 89 (fun _ => 1) (fun _ => 1)
        ⟨0, fun _ => 0, 0, 0, fun _ => 0, 0, 0, 0⟩ ↔
      ∀ toks, some (hashToks 64) = some toks → TextsFit (hashMessage 64) (toks.drop 1)
        { d := 0, k := fun _ => 1, v := fun _ => 1,
          chal := ⟨0, fun _ => 0, 0, 0, fun _ => 0, 0, 0, 0⟩ } :=
  parse_inside_iff (fun _ => some (hashToks 64)) _ 89 _ _ _ fun toks ht => by
    obtain rfl := Option.some.inj ht
    decide

/-- A hash with one digit more than `lhash` has room for. -/
theorem parse_hash_overflow :
    ¬ Inside (fun _ => some (hashToks 65)) (hashMessage 65) 90 (fun _ => 0) (fun _ => 0)
      ⟨0, fun _ => 0, 0, 0, fun _ => 0, 0, 0, 0⟩ := by
  rintro ⟨r, d, h, -⟩
  have hnone : (chalParse (fun _ => some (hashToks 65)) (hashMessage 65) 90 (fun _ => 0)
      (fun _ => 0) ⟨0, fun _ => 0, 0, 0, fun _ => 0, 0, 0, 0⟩).isNone = true := by
    decide +kernel
  rw [h] at hnone
  cases hnone

end Oin17.Chals
