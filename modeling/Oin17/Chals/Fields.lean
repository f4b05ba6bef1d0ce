import Oin17.Chals.Pairs

namespace Oin17.Chals
open Memory Utils

/-- The fields of a challenge that a pair can write. -/
inductive Field where
  | left | size | nblks | type | pfix | id | lhash
  deriving DecidableEq

/-- The field a key is for. -/
def field (key : List UInt8) : Option Field :=
  if key = bytes "time_left" then some .left
  else if key = bytes "nb_elements" then some .size
  else if key = bytes "grid_size" then some .size
  else if key = bytes "nb_blockers" then some .nblks
  else if key = bytes "challenge_name" then some .type
  else if key = bytes "hash_prefix" then some .pfix
  else if key = bytes "challenge_id" then some .id
  else if key = bytes "last_solution_hash" then some .lhash
  else none

/-- The type a challenge name stands for. -/
def chalType (name : List UInt8) : Option UInt8 :=
  if name = bytes "sorted_list" then some chalSort
  else if name = bytes "reverse_sorted_list" then some chalRsort
  else if name = bytes "shortest_path" then some chalSpath
  else none

/-- `__parse_toks`, once the key has been compared. -/
def Chal.write (val : Buf) (chal : Chal) : Option Field → Option (Int × Chal)
  | some .left => some (0, { chal with left := .ofInt (strtol (cstr val 256)) })
  | some .size => some (0, { chal with size := .ofInt (strtol (cstr val 256)) })
  | some .nblks => some (0, { chal with nblks := .ofInt (strtol (cstr val 256)) })
  | some .type =>
    if cstr val 256 = bytes "sorted_list" then some (0, { chal with type := chalSort })
    else if cstr val 256 = bytes "reverse_sorted_list" then some (0, { chal with type := chalRsort })
    else if cstr val 256 = bytes "shortest_path" then some (0, { chal with type := chalSpath })
    else some (-1, chal)
  | some .pfix => (hex2bin 128 val (some chal.pfix)).bind fun h =>
    if sha256Len < h.j then none
    else some (0, { chal with pfix := h.dst.getD chal.pfix, plen := h.j })
  | some .id => some (0, { chal with id := .ofInt (strtol (cstr val 256)) })
  | some .lhash =>
    if 2 * sha256Len < (cstr val 256).length then none
    else some (0, { chal with lhash := store chal.lhash 0 (cstr val 256 ++ [0]) })
  | none => some (0, chal)

/-- What `__parse_toks` returns for a pair, and what it writes. -/
inductive Parsed (key val : Buf) (chal : Chal) : Int → Chal → Prop where
  | left (hk : field (cstr key 64) = some .left) :
    Parsed key val chal 0 { chal with left := .ofInt (strtol (cstr val 256)) }
  | size (hk : field (cstr key 64) = some .size) :
    Parsed key val chal 0 { chal with size := .ofInt (strtol (cstr val 256)) }
  | nblks (hk : field (cstr key 64) = some .nblks) :
    Parsed key val chal 0 { chal with nblks := .ofInt (strtol (cstr val 256)) }
  | type (hk : field (cstr key 64) = some .type) (hv : chalType (cstr val 256) = some t) :
    Parsed key val chal 0 { chal with type := t }
  | unknown (hk : field (cstr key 64) = some .type) (hv : chalType (cstr val 256) = none) :
    Parsed key val chal (-1) chal
  | pfix (hk : field (cstr key 64) = some .pfix) (hn : HexLen val n) (hle : n ≤ sha256Len) :
    Parsed key val chal 0 { chal with pfix := store chal.pfix 0 (packs val 0 n), plen := n }
  | id (hk : field (cstr key 64) = some .id) :
    Parsed key val chal 0 { chal with id := .ofInt (strtol (cstr val 256)) }
  | lhash (hk : field (cstr key 64) = some .lhash)
      (hle : (cstr val 256).length ≤ 2 * sha256Len) :
    Parsed key val chal 0 { chal with lhash := store chal.lhash 0 (cstr val 256 ++ [0]) }
  | other (hk : field (cstr key 64) = none) : Parsed key val chal 0 chal

section Inversion
variable {key val : Buf} {chal : Chal}

theorem parseName_iff {name : List UInt8} {r : Int} {c : Chal} :
    (if name = bytes "sorted_list" then some ((0 : Int), { chal with type := chalSort })
      else if name = bytes "reverse_sorted_list" then some (0, { chal with type := chalRsort })
      else if name = bytes "shortest_path" then some (0, { chal with type := chalSpath })
      else some (-1, chal)) = some (r, c) ↔
    (∃ t, chalType name = some t ∧ r = 0 ∧ c = { chal with type := t }) ∨
      chalType name = none ∧ r = -1 ∧ c = chal := by
  unfold chalType
  split
  · simp [eq_comm]
  split
  · simp [eq_comm]
  split
  · simp [eq_comm]
  · simp [eq_comm]

theorem parsePrefix_iff {r : Int} {c : Chal} :
    ((hex2bin 128 val (some chal.pfix)).bind fun h =>
      if sha256Len < h.j then none
      else some ((0 : Int), { chal with pfix := h.dst.getD chal.pfix, plen := h.j })) = some (r, c) ↔
    ∃ n, HexLen val n ∧ n ≤ sha256Len ∧ r = 0 ∧
      c = { chal with pfix := store chal.pfix 0 (packs val 0 n), plen := n } := by
  constructor
  · intro h
    obtain ⟨q, hq, h⟩ := Option.bind_eq_some_iff.mp h
    split at h
    · cases h
    next hle =>
    have hj : q.j < 128 := by
      have : sha256Len = 32 := rfl
      omega
    obtain ⟨m, hm, hz, hne⟩ := hex2bin_stops hq
    have hlen : HexLen val m := by
      refine ⟨by simpa using hz, fun k hk => ?_⟩
      simpa using hne k hk
    obtain ⟨q', hq', hj', hd⟩ := (hex2bin_iff (d := chal.pfix) hm).mp hlen
    obtain rfl : q = q' := Option.some.inj (hq.symm.trans hq')
    obtain ⟨rfl, rfl⟩ := Prod.mk.inj (Option.some.inj h)
    subst hj'
    exact ⟨q.j, hlen, not_lt.mp hle, rfl, by rw [hd]; rfl⟩
  · rintro ⟨n, hn, hle, rfl, rfl⟩
    have hf : n < 128 := by
      have : sha256Len = 32 := rfl
      omega
    obtain ⟨q, hq, hj, hd⟩ := (hex2bin_iff (d := chal.pfix) hf).mp hn
    rw [hq, Option.bind_some, hj, hd, if_neg (not_lt.mpr hle)]
    rfl

/-- The keys only choose the field. -/
theorem parseTok_field (key val : Buf) (chal : Chal) :
    parseTok key val chal = chal.write val (field (cstr key 64)) := by
  unfold field
  simp only [apply_ite (chal.write val)]
  rfl

theorem parseTok_iff {r : Int} {c : Chal} :
    parseTok key val chal = some (r, c) ↔ Parsed key val chal r c := by
  rw [parseTok_field]
  constructor
  · intro h
    cases hk : field (cstr key 64) with
    | none =>
      rw [hk] at h
      obtain ⟨rfl, rfl⟩ := Prod.mk.inj (Option.some.inj h)
      exact .other hk
    | some f =>
      rw [hk] at h
      cases f with
      | left =>
        obtain ⟨rfl, rfl⟩ := Prod.mk.inj (Option.some.inj h)
        exact .left hk
      | size =>
        obtain ⟨rfl, rfl⟩ := Prod.mk.inj (Option.some.inj h)
        exact .size hk
      | nblks =>
        obtain ⟨rfl, rfl⟩ := Prod.mk.inj (Option.some.inj h)
        exact .nblks hk
      | type =>
        rcases parseName_iff.mp h with ⟨t, ht, rfl, rfl⟩ | ⟨hn, rfl, rfl⟩
        · exact .type hk ht
        · exact .unknown hk hn
      | pfix =>
        obtain ⟨n, hn, hle, rfl, rfl⟩ := parsePrefix_iff.mp h
        exact .pfix hk hn hle
      | id =>
        obtain ⟨rfl, rfl⟩ := Prod.mk.inj (Option.some.inj h)
        exact .id hk
      | lhash =>
        rw [Chal.write] at h
        split at h
        · cases h
        · next hle =>
          obtain ⟨rfl, rfl⟩ := Prod.mk.inj (Option.some.inj h)
          exact .lhash hk (not_lt.mp hle)
  · intro h
    cases h with
    | left hk | size hk | nblks hk | id hk | other hk => rw [hk, Chal.write]
    | type hk hv =>
      rw [hk]
      exact parseName_iff.mpr (Or.inl ⟨_, hv, rfl, rfl⟩)
    | unknown hk hv =>
      rw [hk]
      exact parseName_iff.mpr (Or.inr ⟨hv, rfl, rfl⟩)
    | pfix hk hn hle =>
      rw [hk]
      exact parsePrefix_iff.mpr ⟨_, hn, hle, rfl, rfl⟩
    | lhash hk hle => rw [hk, Chal.write, if_neg (not_lt.mpr hle)]

/-- The pairs that `__parse_toks` accepts. -/
def Taken (key val : Buf) : Prop :=
  (field (cstr key 64) = some .type → chalType (cstr val 256) ≠ none) ∧
    (field (cstr key 64) = some .pfix → ∃ n ≤ sha256Len, HexLen val n) ∧
    (field (cstr key 64) = some .lhash → (cstr val 256).length ≤ 2 * sha256Len)

theorem taken_iff (chal : Chal) : Taken key val ↔ ∃ c, Parsed key val chal 0 c := by
  constructor
  · rintro ⟨htype, hpfix, hlhash⟩
    cases hk : field (cstr key 64) with
    | none => exact ⟨_, .other hk⟩
    | some f =>
      cases f with
      | left => exact ⟨_, .left hk⟩
      | size => exact ⟨_, .size hk⟩
      | nblks => exact ⟨_, .nblks hk⟩
      | type =>
        obtain ⟨t, ht⟩ := Option.ne_none_iff_exists'.mp (htype hk)
        exact ⟨_, .type hk ht⟩
      | pfix =>
        obtain ⟨n, hle, hn⟩ := hpfix hk
        exact ⟨_, .pfix hk hn hle⟩
      | id => exact ⟨_, .id hk⟩
      | lhash => exact ⟨_, .lhash hk (hlhash hk)⟩
  · rintro ⟨c, h⟩
    cases h with
    | left hk | size hk | nblks hk | id hk | other hk =>
      refine ⟨fun he => ?_, fun he => ?_, fun he => ?_⟩ <;> simp [hk] at he
    | type hk hv =>
      refine ⟨fun _ => by simp [hv], fun he => ?_, fun he => ?_⟩ <;> simp [hk] at he
    | pfix hk hn hle =>
      refine ⟨fun he => ?_, fun _ => ⟨_, hle, hn⟩, fun he => ?_⟩ <;> simp [hk] at he
    | lhash hk hle =>
      refine ⟨fun he => ?_, fun he => ?_, fun _ => hle⟩ <;> simp [hk] at he

end Inversion

/-- What the solvers see of a field. -/
def Chal.Same (c c' : Chal) : Field → Prop
  | .left => c.left = c'.left
  | .size => c.size = c'.size
  | .nblks => c.nblks = c'.nblks
  | .type => c.type = c'.type
  | .pfix => c.plen = c'.plen ∧ load c.pfix 0 c.plen = load c'.pfix 0 c.plen
  | .id => c.id = c'.id
  | .lhash => cstr c.lhash 65 = cstr c'.lhash 65

section Two
variable {key val : Buf} {c d : Chal} {r : Int}

/-- Fields that the pair is not for stay as they are. -/
theorem Parsed.keep (h : Parsed key val c r d) (hf : field (cstr key 64) ≠ some f) (x : Chal) :
    (d.Same x f ↔ c.Same x f) ∧ (x.Same d f ↔ x.Same c f) := by
  cases h with
  | left hk | size hk | nblks hk | type hk | pfix hk | id hk | lhash hk =>
    rw [hk] at hf
    cases f <;> first | exact absurd rfl hf | exact ⟨Iff.rfl, Iff.rfl⟩
  | unknown | other => exact ⟨Iff.rfl, Iff.rfl⟩

/-- The field that the pair is for keeps nothing of what was there. -/
theorem Parsed.wrote (h : Parsed key val c 0 d) (c' : Chal) :
    ∃ d', Parsed key val c' 0 d' ∧ ∀ f, field (cstr key 64) = some f → d.Same d' f := by
  cases h with
  | left hk =>
    refine ⟨_, .left hk, fun f hf => ?_⟩
    obtain rfl := Option.some.inj (hk.symm.trans hf)
    exact rfl
  | size hk =>
    refine ⟨_, .size hk, fun f hf => ?_⟩
    obtain rfl := Option.some.inj (hk.symm.trans hf)
    exact rfl
  | nblks hk =>
    refine ⟨_, .nblks hk, fun f hf => ?_⟩
    obtain rfl := Option.some.inj (hk.symm.trans hf)
    exact rfl
  | type hk hv =>
    refine ⟨_, .type hk hv, fun f hf => ?_⟩
    obtain rfl := Option.some.inj (hk.symm.trans hf)
    exact rfl
  | @pfix n hk hn hle =>
    refine ⟨_, .pfix hk hn hle, fun f hf => ?_⟩
    obtain rfl := Option.some.inj (hk.symm.trans hf)
    have hload : ∀ b : Buf, load (store b 0 (packs val 0 n)) 0 n = packs val 0 n := by
      intro b
      have := load_store b 0 (packs val 0 n)
      rwa [packs, List.length_map, List.length_range] at this
    exact ⟨rfl, (hload _).trans (hload _).symm⟩
  | id hk =>
    refine ⟨_, .id hk, fun f hf => ?_⟩
    obtain rfl := Option.some.inj (hk.symm.trans hf)
    exact rfl
  | lhash hk hle =>
    refine ⟨_, .lhash hk hle, fun f hf => ?_⟩
    obtain rfl := Option.some.inj (hk.symm.trans hf)
    have hlen : (cstr val 256).length < 65 := by
      have : sha256Len = 32 := rfl
      omega
    have hstr : ∀ b : Buf, cstr (store b 0 (cstr val 256 ++ [0])) 65 = cstr val 256 :=
      fun b => (holds_store b _).cstr (cstr_no_nul val 256) hlen
    exact (hstr _).trans (hstr _).symm
  | other hk =>
    refine ⟨_, .other hk, fun f hf => ?_⟩
    rw [hk] at hf
    cases hf

end Two

end Oin17.Chals
