import Oin17.Chals.Drafts

namespace Oin17.Chals
open Memory Utils

/-- The challenges that are mined in the same way: the parameters are those that the
solver for the type uses. -/
structure Chal.Agrees (c c' : Chal) : Prop where
  type : c.type = c'.type
  id : c.id = c'.id
  left : c.left = c'.left
  lhash : cstr c.lhash 65 = cstr c'.lhash 65
  plen : c.plen = c'.plen
  pfix : load c.pfix 0 c.plen = load c'.pfix 0 c.plen
  sort : c.type = chalSort ∨ c.type = chalRsort → c.size = c'.size
  spath : c.type = chalSpath → c.size = c'.size ∧ c.nblks = c'.nblks

/-- A message that parses leaves nothing of what the challenge held before, nor of what the
buffers of `parse_toks` did. -/
def Fresh (jsmn : Jsmn) (buf : Buf) (len : Nat) : Prop :=
  ∀ k v k' v' c c' d d', chalParse jsmn buf len k v c = some (0, d) →
    chalParse jsmn buf len k' v' c' = some (0, d') → d.Agrees d'

section Pairs
variable {key key' val val' k v k' v' : Buf} {c c' d d' e e' : Chal} {f : Field}
variable {p : List UInt8 × List UInt8} {ps : List (List UInt8 × List UInt8)}

theorem Chal.write_congr (hv : cstr val 256 = cstr val' 256) (hf : f ≠ .pfix) (c : Chal) :
    c.write val (some f) = c.write val' (some f) := by
  cases f with
  | pfix => exact absurd rfl hf
  | left | size | nblks | type | id | lhash => simp only [Chal.write, hv]

/-- Two pairs with the same key and value, and the same prefix if they are for that. -/
theorem Parsed.same (h : Parsed key val c 0 e) (h' : Parsed key' val' c' 0 e')
    (hk : field (cstr key 64) = some f) (hk' : field (cstr key' 64) = some f)
    (hv : cstr val 256 = cstr val' 256)
    (hp : f = .pfix → ∀ n n', HexLen val n → HexLen val' n' → n ≤ sha256Len → n' ≤ sha256Len →
      n = n' ∧ packs val 0 n = packs val' 0 n) : e.Same e' f := by
  by_cases hf : f = .pfix
  · subst hf
    have hrun := parseTok_iff.mpr h
    have hrun' := parseTok_iff.mpr h'
    rw [parseTok_field, hk] at hrun
    rw [parseTok_field, hk'] at hrun'
    obtain ⟨n, hn, hle, -, rfl⟩ := parsePrefix_iff.mp hrun
    obtain ⟨n', hn', hle', -, rfl⟩ := parsePrefix_iff.mp hrun'
    obtain ⟨rfl, hpacks⟩ := hp rfl n n' hn hn' hle hle'
    have hload : ∀ (b str : Buf), load (store b 0 (packs str 0 n)) 0 n = packs str 0 n := by
      intro b str
      have hl := load_store b 0 (packs str 0 n)
      rwa [packs, List.length_map, List.length_range] at hl
    exact ⟨rfl, (hload _ _).trans (hpacks.trans (hload _ _).symm)⟩
  · obtain ⟨e'', h'', hsame⟩ := h.wrote c'
    have hrun := parseTok_iff.mpr h''
    rw [parseTok_field, hk, Chal.write_congr hv hf, ← hk', ← parseTok_field] at hrun
    obtain ⟨-, rfl⟩ := Prod.mk.inj (Option.some.inj (hrun.symm.trans (parseTok_iff.mpr h')))
    exact hsame f hk

theorem Spelled.field (h : Spelled p) (hk : p.1 ≠ []) (b : Buf) :
    field (cstr (store b 0 p.1) 64) = Chals.field (text p.1) := by
  rw [(h.key.resolve_left hk).cstr b]

/-- A key that was not written is the empty one, in a buffer that held zeros. -/
theorem Spelled.field_pad (h : Spelled p) :
    Chals.field (cstr (pad p.1) 64) = Chals.field (text p.1) := by
  rcases h.key with hk | hk
  · rw [hk]
    decide
  · rw [pad, hk.cstr]

/-- What `__parse_toks` accepts, by what was written, where the key held zeros. -/
theorem Spelled.taken (h : Spelled p) (v : Buf) : Taken (pad p.1) (store v 0 p.2) ↔
    (Chals.field (text p.1) = some .type → chalType (text p.2) ≠ none) ∧
    (Chals.field (text p.1) = some .pfix → ∃ n ≤ sha256Len, HexLen (store v 0 p.2) n) ∧
    (Chals.field (text p.1) = some .lhash → (text p.2).length ≤ 2 * sha256Len) := by
  unfold Taken
  rw [h.field_pad, h.val.cstr]

end Pairs

section Main
variable {k v k' v' : Buf} {c c' d d' : Chal} {ps : List (List UInt8 × List UInt8)}

end Main

end Oin17.Chals
