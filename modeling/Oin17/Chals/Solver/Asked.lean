import Oin17.Chals.Documents
import Oin17.Chals.Solver.Runs
import Oin17.Utils.Roundtrip

namespace Oin17.Chals.Solvers
open Memory Sortlist Utils

/-- What the server asks for. -/
inductive Task where
  | sorted (nelems : Nat)
  | reverse (nelems : Nat)
  | path (size nblks : Nat)

def Task.name : Task → Text
  | .sorted _ => ⟨bytes "sorted_list", by decide⟩
  | .reverse _ => ⟨bytes "reverse_sorted_list", by decide⟩
  | .path _ _ => ⟨bytes "shortest_path", by decide⟩

def Task.type : Task → UInt8
  | .sorted _ => chalSort
  | .reverse _ => chalRsort
  | .path _ _ => chalSpath

/-- What `size` is for. -/
def Task.size : Task → Nat
  | .sorted n | .reverse n => n
  | .path size _ => size

def Task.params : Task → List (Text × Nat)
  | .sorted n | .reverse n => [(⟨bytes "nb_elements", by decide⟩, n)]
  | .path size nblks =>
    [(⟨bytes "grid_size", by decide⟩, size), (⟨bytes "nb_blockers", by decide⟩, nblks)]

/-- The text that answers a task, from the numbers that a seed gives. -/
inductive Task.Answer (f : Nat → UInt64) : Task → List UInt8 → Prop
  | sorted {l : List UInt64} (hp : l.Perm ((List.range n).map f)) (hs : l.Pairwise (· ≤ ·)) :
    Task.Answer f (.sorted n) (l.flatMap fun x => decimal x.toNat)
  | reverse {l : List UInt64} (hp : l.Perm ((List.range n).map f)) (hs : l.Pairwise (· ≥ ·)) :
    Task.Answer f (.reverse n) (l.flatMap fun x => decimal x.toNat)
  | path {cells : List Nat} (hd : Drawn f n b mz) (hp : Canonical mz cells) :
    Task.Answer f (.path n b) (solution n cells)

/-- A challenge as the server has it, with the last digest and the prefix in bytes. -/
structure Asked where
  id : Nat
  left : Nat
  task : Task
  last : List UInt8
  pfix : List UInt8
  id_lt : id < 2 ^ 63
  left_lt : left < 2 ^ 32
  params_lt : ∀ p ∈ task.params, p.2 < 2 ^ 63
  last_length : last.length = sha256Len
  pfix_length : pfix.length ≤ sha256Len

section Server
variable (sha256 : List UInt8 → Buf)

def Asked.seed (a : Asked) (non : UInt64) : UInt64 :=
  digestWord (sha256 (hexText a.last ++ decimal non.toNat))

/-- The digest of the answer for a nonce begins with the prefix, as texts. -/
def Asked.Accepts (a : Asked) (non : UInt64) : Prop :=
  ∃ text, a.task.Answer (number (a.seed sha256 non)) text ∧
    hexText a.pfix <+: digestText (sha256 text)

/-- There is no zero in the list, for which `u64str` writes nothing. -/
def Asked.Plain (a : Asked) (non : UInt64) : Prop :=
  (∀ n b, a.task ≠ .path n b) → ∀ k, k < a.task.size → number (a.seed sha256 non) k ≠ 0

end Server

section Decimals

def Digit (c : UInt8) : Prop := 48 ≤ c ∧ c ≤ 57

theorem digit_toNat (n : Nat) : (UInt8.ofNat (48 + n % 10)).toNat = 48 + n % 10 := by
  simp
  omega

theorem digit_ascii (n : Nat) : Digit (UInt8.ofNat (48 + n % 10)) := by
  have h := digit_toNat n
  constructor
  · apply UInt8.le_iff_toNat_le.mpr
    rw [h]
    exact Nat.le_add_right ..
  · apply UInt8.le_iff_toNat_le.mpr
    rw [h]
    change 48 + n % 10 ≤ 57
    omega

theorem digits_ascii (n : Nat) : ∀ c ∈ Utils.digits n, Digit c := by
  induction n using Nat.strong_induction_on with
  | _ n ih =>
    intro c hc
    by_cases h : n = 0
    · rw [digits_eq_nil.mpr h] at hc
      cases hc
    · rw [digits_step h] at hc
      rcases List.mem_append.mp hc with hc | hc
      · exact ih (n / 10) (by omega) c hc
      · rw [List.mem_singleton.mp hc]
        exact digit_ascii n

theorem decimal_ascii (n : Nat) : ∀ c ∈ decimal n, Digit c := by
  rcases Nat.eq_zero_or_pos n with rfl | h
  · intro c hc
    obtain rfl := List.mem_singleton.mp hc
    exact ⟨by decide, by decide⟩
  · rw [← digits_pos h]
    exact digits_ascii n

theorem digits_append (hs : ∀ c ∈ s, Digit c) (t : List UInt8) (n : Int) :
    digits (s ++ t) n = digits t (digits s n) := by
  induction s generalizing n with
  | nil => rfl
  | cons c s ih =>
    rw [List.forall_mem_cons] at hs
    have hc : 48 ≤ c ∧ c ≤ 57 := hs.1
    rw [List.cons_append, digits, digits, if_pos hc, if_pos hc]
    exact ih hs.2 _

/-- Reading the digits of a number gives it back. -/
theorem digits_value (n : Nat) : digits (Utils.digits n) 0 = n := by
  induction n using Nat.strong_induction_on with
  | _ n ih =>
    by_cases h : n = 0
    · rw [digits_eq_nil.mpr h, h]
      rfl
    · have hlast : 48 ≤ UInt8.ofNat (48 + n % 10) ∧ UInt8.ofNat (48 + n % 10) ≤ 57 :=
        digit_ascii n
      rw [digits_step h, digits_append (digits_ascii _), ih (n / 10) (by omega), digits,
        if_pos hlast, digit_toNat]
      simp only [digits]
      omega

theorem decimal_value (n : Nat) : digits (decimal n) 0 = n := by
  rcases Nat.eq_zero_or_pos n with rfl | h
  · rfl
  · rw [← digits_pos h]
    exact digits_value n

theorem Digit.not_space (h : Digit c) : isspace c = false := by
  obtain ⟨hl, hr⟩ := h
  have hl := UInt8.le_iff_toNat_le.mp hl
  have hr := UInt8.le_iff_toNat_le.mp hr
  have h32 : c ≠ 32 := by
    rintro rfl
    exact absurd hl (by decide)
  have h13 : ¬ c ≤ 13 := fun hc => by
    have hc := UInt8.le_iff_toNat_le.mp hc
    have h48 : (48 : UInt8).toNat = 48 := rfl
    have h13 : (13 : UInt8).toNat = 13 := rfl
    omega
  simp [isspace, h32, h13]

/-- Numbers are not changed on their way through a message. -/
theorem strtol_decimal (h : n < 2 ^ 63) : strtol (decimal n) = n := by
  have hval := decimal_value n
  have hall := decimal_ascii n
  cases hd : decimal n with
  | nil =>
    have hpos := decimal_length_pos n
    rw [hd] at hpos
    exact absurd hpos (lt_irrefl 0)
  | cons c s =>
    rw [hd] at hval hall
    have hc : Digit c := hall c List.mem_cons_self
    have hdrop : (c :: s).dropWhile isspace = c :: s := by
      rw [List.dropWhile_cons, hc.not_space]
      rfl
    unfold strtol
    rw [hdrop]
    split
    · next heq =>
      obtain ⟨rfl, -⟩ := List.cons.inj heq
      exact absurd hc.1 (by decide)
    · next heq =>
      obtain ⟨rfl, -⟩ := List.cons.inj heq
      exact absurd hc.1 (by decide)
    · rw [hval]
      dsimp only
      omega

theorem decimal_no_nul (n : Nat) : 0 ∉ decimal n := by
  intro h
  exact absurd (decimal_ascii n 0 h).1 (by decide)

end Decimals

def decimalText (n : Nat) : Text := ⟨decimal n, decimal_no_nul n⟩

def hex (bs : List UInt8) : Text := ⟨hexText bs, lowerHex_no_nul (hexText_lower bs)⟩

/-- The challenge is the one that was asked, in all that the solvers look at. -/
structure Asked.Stored (a : Asked) (chl : Chal) : Prop where
  id : chl.id.toNat = a.id
  left : chl.left.toNat = a.left
  type : chl.type = a.task.type
  size : chl.size.toNat = a.task.size
  nblks : a.task = .path n b → chl.nblks.toNat = b
  lhash : Memory.Holds chl.lhash 0 (hexText a.last)
  plen : chl.plen = a.pfix.length
  pfix : load chl.pfix 0 chl.plen = a.pfix

/-- The keys and values of its message. -/
def Asked.pairs (a : Asked) : List (Text × Text) :=
  [(⟨bytes "time_left", by decide⟩, decimalText a.left),
    (⟨bytes "challenge_id", by decide⟩, decimalText a.id),
    (⟨bytes "challenge_name", by decide⟩, a.task.name),
    (⟨bytes "hash_prefix", by decide⟩, hex a.pfix),
    (⟨bytes "last_solution_hash", by decide⟩, hex a.last)] ++
    a.task.params.map fun p => (p.1, decimalText p.2)

/-- The tokens are those of an object with these pairs, in any order and nesting, and others that
`__parse_toks` has no field for. -/
def Asked.Sent (a : Asked) (buf : Buf) (toks : List Token) : Prop :=
  ∃ m others, Document buf m toks ∧ m.Bounded ∧ m.leaves.Perm (a.pairs ++ others) ∧
    ∀ l ∈ others, field l.1.1 = none

section Message
variable {a : Asked} {ls others : List (Text × Text)} {c : Chal}

theorem toNat_number (h : n < 2 ^ 63) : (UInt64.ofInt (strtol (decimal n))).toNat = n := by
  rw [strtol_decimal h, UInt64.ofInt]
  simp
  omega

theorem toNat_time (h : n < 2 ^ 32) : (UInt32.ofInt (strtol (decimal n))).toNat = n := by
  rw [strtol_decimal (h.trans (by decide)), UInt32.ofInt]
  simp
  omega

/-- No two pairs are for the same field. -/
theorem separate_of_nodup (h : (ls.filterMap fun l => field l.1.1).Nodup) : Separate ls := by
  refine (List.pairwise_filterMap.mp h).imp fun hne f hf hf' => ?_
  exact hne f hf.1 f hf'.1 rfl

theorem pairs_fields (a : Asked) : (a.pairs.filterMap fun l => field l.1.1).Nodup := by
  unfold Asked.pairs
  cases a.task with
  | sorted n | reverse n =>
    change List.Nodup [Field.left, .id, .type, .pfix, .lhash, .size]
    decide
  | path n b =>
    change List.Nodup [Field.left, .id, .type, .pfix, .lhash, .size, .nblks]
    decide

theorem foldl_others (h : ∀ l ∈ others, field l.1.1 = none) (c : Chal) :
    others.foldl Chal.put c = c := by
  induction others with
  | nil => rfl
  | cons l ls ih =>
    rw [List.forall_mem_cons] at h
    have hput : c.put l = c := by
      rw [Chal.put, h.1]
    rw [List.foldl_cons, hput]
    exact ih h.2

/-- What its pairs leave in a challenge. -/
def Asked.write (a : Asked) (c : Chal) : Chal where
  type := a.task.type
  lhash := store c.lhash 0 (hexText a.last ++ [0])
  left := .ofInt (strtol (decimal a.left))
  id := .ofInt (strtol (decimal a.id))
  pfix := store c.pfix 0 (hexBytes (hexText a.pfix))
  plen := (hexText a.pfix).length / 2
  size := .ofInt (strtol (decimal a.task.size))
  nblks :=
    match a.task with
    | .path _ b => .ofInt (strtol (decimal b))
    | _ => c.nblks

theorem pairs_put (a : Asked) (c : Chal) : a.pairs.foldl Chal.put c = a.write c := by
  obtain ⟨id, left, task, last, pfix, _, _, _, _, _⟩ := a
  cases task <;> rfl

theorem write_stored (a : Asked) (c : Chal) : a.Stored (a.write c) := by
  have hsize : a.task.size < 2 ^ 63 := by
    have h := a.params_lt
    cases ht : a.task with
    | sorted n | reverse n | path n b =>
      rw [ht] at h
      exact h _ List.mem_cons_self
  have hplen : (hexText a.pfix).length / 2 = a.pfix.length := by
    rw [hexText_length]
    omega
  refine ⟨toNat_number a.id_lt, toNat_time a.left_lt, rfl, toNat_number hsize, ?_,
    holds_store _ _, hplen, ?_⟩
  · intro n b ht
    have hb : b < 2 ^ 63 := by
      apply a.params_lt (⟨bytes "nb_blockers", by decide⟩, b)
      rw [ht]
      exact List.mem_cons_of_mem _ List.mem_cons_self
    simp only [Asked.write, ht]
    exact toNat_number hb
  · change load (store c.pfix 0 (hexBytes (hexText a.pfix))) 0 ((hexText a.pfix).length / 2) =
      a.pfix
    rw [hplen, hexBytes_hexText]
    exact load_store ..

theorem params_field (t : Task) :
    ∀ p ∈ t.params, field p.1.1 = some .size ∨ field p.1.1 = some .nblks := by
  intro p hp
  cases t with
  | sorted n | reverse n =>
    rw [List.mem_singleton.mp hp]
    exact Or.inl rfl
  | path n b =>
    rcases List.mem_cons.mp hp with rfl | hp
    · exact Or.inl rfl
    · rw [List.mem_singleton.mp hp]
      exact Or.inr rfl

theorem pairs_values (hl : l ∈ a.pairs) : (field l.1.1 = some .type → l.2 = a.task.name) ∧
    (field l.1.1 = some .pfix → l.2 = hex a.pfix) ∧
    (field l.1.1 = some .lhash → l.2 = hex a.last) := by
  rcases List.mem_append.mp hl with hl | hl
  · simp only [List.mem_cons, List.not_mem_nil, or_false] at hl
    rcases hl with rfl | rfl | rfl | rfl | rfl <;>
      exact ⟨fun h => by cases h <;> rfl, fun h => by cases h <;> rfl, fun h => by cases h <;> rfl⟩
  · obtain ⟨p, hp, rfl⟩ := List.mem_map.mp hl
    rcases params_field _ p hp with hf | hf
    · simp [hf]
    · simp [hf]

theorem pairs_known (a : Asked) : ∀ l ∈ a.pairs, ¬ Unknown l := by
  intro l hl hu
  have hname := hu.2
  rw [(pairs_values hl).1 hu.1] at hname
  cases ht : a.task with
  | sorted n | reverse n | path n b =>
    rw [ht] at hname
    cases hname

theorem pairs_fit (a : Asked) : ∀ l ∈ a.pairs, Chals.Fits l := by
  intro l hl
  obtain ⟨-, hpfix, hlast⟩ := pairs_values hl
  constructor
  · intro hf
    rw [hlast hf]
    change (hexText a.last).length ≤ _
    rw [hexText_length, a.last_length]
  · intro hf
    have hle := a.pfix_length
    rw [hpfix hf]
    change (hexText a.pfix).length ≤ _ ∧ (hexText a.pfix).length % 2 = 0
    rw [hexText_length]
    omega

/-- A message of the challenge is read as the challenge, and nothing that was there before is
left in what the solvers look at. -/
theorem Asked.Sent.stored (h : a.Sent buf toks) (hjsmn : jsmn (load buf 0 len) = some toks)
    (k v : Buf) (c : Chal) : ∃ d, chalParse jsmn buf len k v c = some (0, d) ∧ a.Stored d := by
  obtain ⟨m, others, hdoc, hb, hm, ho⟩ := h
  obtain ⟨ps, hps, hpairs⟩ := hdoc.pairs hb k v c
  have hrun : parseToks buf (toks.drop 1) ⟨0, k, v, c⟩ = callAll parseTok ps c :=
    (parseToks_feed buf _ ⟨0, k, v, c⟩ c).trans (feed_pairs hpairs c)
  have hall : ∀ l ∈ m.leaves, Chals.Fits l ∧ ¬ Unknown l := by
    intro l hl
    rcases List.mem_append.mp (hm.mem_iff.mp hl) with hl | hl
    · exact ⟨pairs_fit a l hl, pairs_known a l hl⟩
    · have hnone := ho l hl
      refine ⟨⟨fun hf => ?_, fun hf => ?_⟩, fun hu => ?_⟩
      · cases hnone.symm.trans hf
      · cases hnone.symm.trans hf
      · cases hnone.symm.trans hu.1
  have hfields : others.filterMap (fun l => field l.1.1) = [] := by
    simpa [List.filterMap_eq_nil_iff] using ho
  have hsep : Separate m.leaves := by
    apply separate_of_nodup
    apply (hm.filterMap fun l => field l.1.1).nodup_iff.mpr
    rw [List.filterMap_append, hfields, List.append_nil]
    exact pairs_fields a
  have hput := callAll_put hps (fun l hl => (hall l hl).1) (fun l hl => (hall l hl).2) c
  rw [foldl_put_perm hm hsep (fun l hl => (hall l hl).2), List.foldl_append, foldl_others ho,
    pairs_put] at hput
  refine ⟨a.write c, ?_, write_stored a c⟩
  rw [chalParse, hjsmn]
  exact hrun.trans hput

end Message

section Answers
variable {sha256 : List UInt8 → Buf} {a : Asked} {chl : Chal} {non : UInt64} {f : Nat → UInt64}

/-- A list in a total order has one arrangement. -/
theorem eq_mergeSort_iff {α : Type} {le : α → α → Bool} {l r : List α}
    (htrans : ∀ a b c, le a b = true → le b c = true → le a c = true)
    (htotal : ∀ a b, (le a b || le b a) = true)
    (hanti : ∀ a b, le a b = true → le b a = true → a = b) :
    l = r.mergeSort le ↔ l.Perm r ∧ l.Pairwise fun a b => le a b = true := by
  have hsorted := List.pairwise_mergeSort htrans htotal r
  have hperm := List.mergeSort_perm r le
  constructor
  · rintro rfl
    exact ⟨hperm, hsorted⟩
  · intro ⟨hp, hs⟩
    exact (hp.trans hperm.symm).eq_of_pairwise (fun a b _ _ => hanti a b) hs hsorted

theorem inOrder_sort {l r : List UInt64} :
    l = inOrder chalSort r ↔ l.Perm r ∧ l.Pairwise (· ≤ ·) := by
  rw [inOrder, if_pos rfl, eq_mergeSort_iff]
  · simp
  · simpa using fun a b c => UInt64.le_trans
  · simpa using UInt64.le_total
  · simpa using fun a b => UInt64.le_antisymm

theorem inOrder_rsort {l r : List UInt64} :
    l = inOrder chalRsort r ↔ l.Perm r ∧ l.Pairwise (· ≥ ·) := by
  rw [inOrder, if_neg (by decide), eq_mergeSort_iff]
  · simp
  · simpa using fun a b c h h' => UInt64.le_trans h' h
  · simpa using fun a b => UInt64.le_total b a
  · simpa using fun a b h h' => UInt64.le_antisymm h' h

/-- The text of a list without zeros is that of its numbers in decimal. -/
theorem listText_decimal (hf : ∀ k, k < n → f k ≠ 0) :
    listText type ((List.range n).map f) =
      (inOrder type ((List.range n).map f)).flatMap fun x => decimal x.toNat := by
  have hperm : (inOrder type ((List.range n).map f)).Perm ((List.range n).map f) := by
    unfold inOrder
    split <;> exact List.mergeSort_perm ..
  apply List.flatMap_congr
  intro x hx
  obtain ⟨k, hk, rfl⟩ := List.mem_map.mp (hperm.mem_iff.mp hx)
  have hne : (f k).toNat ≠ 0 := by
    intro h0
    exact hf k (List.mem_range.mp hk) (UInt64.toNat_inj.mp h0)
  exact digits_pos (Nat.pos_of_ne_zero hne)

theorem Asked.Stored.seed (h : a.Stored chl) (hnon : 0 < non) :
    seedOf sha256 chl non = a.seed sha256 non := by
  have hlen : (hexText a.last).length = sha256Dlen := by
    rw [hexText_length, a.last_length]
    rfl
  have hload := h.lhash.1
  rw [hlen] at hload
  rw [seedOf, hload, digits_pos (UInt64.lt_iff_toNat_lt.mp hnon)]
  rfl

/-- The test of the digest is that of the server. -/
theorem Asked.Stored.accepts (h : a.Stored chl) (d : Buf) :
    accepts d chl.pfix chl.plen = true ↔ hexText a.pfix <+: digestText d := by
  have hlen : (hexText a.pfix).length / 2 = chl.plen := by
    rw [hexText_length, h.plen]
    omega
  have hle : (hexText a.pfix).length ≤ 64 := by
    have hp := a.pfix_length
    rw [hexText_length]
    change a.pfix.length ≤ 32 at hp
    omega
  have hloads : load (store chl.pfix 0 (hexBytes (hexText a.pfix))) 0 chl.plen =
      load chl.pfix 0 chl.plen := by
    rw [hexBytes_hexText, h.pfix, h.plen]
    exact load_store ..
  have hx := hexText_lower a.pfix
  have he : (hexText a.pfix).length % 2 = 0 := by
    rw [hexText_length]
    omega
  have htest := accepts_prefix hx he hle d chl.pfix
  rw [hlen, Chals.accepts, memcmp, hloads] at htest
  exact htest

theorem answer_list (ht : chl.type = chalSort ∨ chl.type = chalRsort) (text : List UInt8) :
    Answer sha256 chl non text ↔ text = listText chl.type
      ((List.range chl.size.toNat).map (number (seedOf sha256 chl non))) := by
  constructor
  · intro h
    cases h with
    | list _ => rfl
    | path hs _ _ => exact absurd ht (chal_types hs)
  · rintro rfl
    exact .list ht

theorem answer_path (ht : chl.type = chalSpath) (text : List UInt8) :
    Answer sha256 chl non text ↔ ∃ mz cells,
      Drawn (number (seedOf sha256 chl non)) chl.size.toNat chl.nblks.toNat mz ∧
      Canonical mz cells ∧ text = solution chl.size.toNat cells := by
  constructor
  · intro h
    cases h with
    | list hl => exact absurd hl (chal_types ht)
    | @path mz cells _ hd hp =>
      refine ⟨mz, cells, hd, hp, ?_⟩
      obtain ⟨_, _, _, _, rfl⟩ := hd
      rfl
  · rintro ⟨mz, cells, hd, hp, rfl⟩
    have hsize : mz.size = chl.size.toNat := by
      obtain ⟨_, _, _, _, rfl⟩ := hd
      rfl
    rw [← hsize]
    exact .path ht hd hp

/-- The answers of the solvers are those of the server. -/
theorem Asked.Stored.answer (h : a.Stored chl) (hnon : 0 < non) (hp : a.Plain sha256 non)
    (text : List UInt8) :
    Answer sha256 chl non text ↔ a.task.Answer (number (a.seed sha256 non)) text := by
  have htype := h.type
  have hsize := h.size
  have hnblks := @h.nblks
  unfold Asked.Plain at hp
  cases ht : a.task with
  | sorted n =>
    rw [ht] at htype hsize hp
    have htype : chl.type = chalSort := htype
    have hsize : chl.size.toNat = n := hsize
    have hp : ∀ k, k < n → number (a.seed sha256 non) k ≠ 0 := hp nofun
    rw [answer_list (Or.inl htype), h.seed hnon, hsize, listText_decimal hp, htype]
    constructor
    · rintro rfl
      obtain ⟨hperm, hs⟩ := inOrder_sort.mp rfl
      exact .sorted hperm hs
    · intro hans
      cases hans with
      | sorted hperm hs => rw [inOrder_sort.mpr ⟨hperm, hs⟩]
  | reverse n =>
    rw [ht] at htype hsize hp
    have htype : chl.type = chalRsort := htype
    have hsize : chl.size.toNat = n := hsize
    have hp : ∀ k, k < n → number (a.seed sha256 non) k ≠ 0 := hp nofun
    rw [answer_list (Or.inr htype), h.seed hnon, hsize, listText_decimal hp, htype]
    constructor
    · rintro rfl
      obtain ⟨hperm, hs⟩ := inOrder_rsort.mp rfl
      exact .reverse hperm hs
    · intro hans
      cases hans with
      | reverse hperm hs => rw [inOrder_rsort.mpr ⟨hperm, hs⟩]
  | path n b =>
    rw [ht] at htype hsize
    have hsize : chl.size.toNat = n := hsize
    rw [answer_path htype, h.seed hnon, hsize, hnblks ht]
    constructor
    · rintro ⟨mz, cells, hd, hpath, rfl⟩
      exact .path hd hpath
    · intro hans
      cases hans with
      | path hd hpath => exact ⟨_, _, hd, hpath, rfl⟩

theorem Asked.Stored.solves (h : a.Stored chl) (hnon : 0 < non) (hp : a.Plain sha256 non) :
    Solves sha256 chl non ↔ a.Accepts sha256 non := by
  apply exists_congr
  intro text
  rw [h.answer hnon hp, h.accepts]

end Answers

theorem room_some (jsmn : Jsmn) :
    jsmn.room n bs = some toks ↔ jsmn bs = some toks ∧ toks.length ≤ n := by
  simp [Jsmn.room]

theorem room_none (h : jsmn bs = some toks) (hn : n < toks.length) :
    Jsmn.room jsmn n bs = none := by
  simp [Jsmn.room, h, hn]

/-- A token over a part of a text. -/
def Spells (bs : List UInt8) (p : Token × Text) : Prop :=
  p.1.start ≤ p.1.stop ∧ p.1.stop ≤ bs.length ∧
    (bs.drop p.1.start).take (p.1.stop - p.1.start) = p.2.1

instance : Decidable (Spells bs p) := by
  unfold Spells
  infer_instance

theorem Spells.token (h : Spells bs (t, u)) (b : Buf) : t.Over (store b 0 bs) t.type u := by
  obtain ⟨hle, hstop, htext⟩ := h
  dsimp only at hle hstop htext
  refine ⟨rfl, hle, ?_⟩
  rw [← htext]
  apply List.ext_getElem
  · simp
    omega
  · intro i hi hj
    rw [load_length] at hi
    rw [load_getElem, List.getElem_take, List.getElem_drop]
    simpa using store_in b bs (o := 0) (i := t.start + i) (by omega)

/-- Another text may follow. -/
theorem Spells.append (h : Spells bs p) (r : List UInt8) : Spells (bs ++ r) p := by
  obtain ⟨hle, hstop, htext⟩ := h
  refine ⟨hle, ?_, ?_⟩
  · rw [List.length_append]
    omega
  · rw [← htext, List.drop_append_of_le_length (by omega), List.take_append_of_le_length]
    rw [List.length_drop]
    omega

/-- A message about a list of three numbers, with a key that is not read. -/
def shortText : List UInt8 :=
  bytes "\x7b\"challenge_id\":7,\"time_left\":5,\"challenge_name\":\"sorted_list\"," ++
    bytes "\"hash_prefix\":\"00\",\"last_solution_hash\":\"" ++ List.replicate 64 48 ++
    bytes "\",\"parameters\":\x7b\"nb_elements\":3\x7d,\"type\":\"x\"\x7d"

def shortSpells : List (Token × Text) :=
  [(⟨.string, 2, 14⟩, ⟨bytes "challenge_id", by decide⟩),
    (⟨.primitive, 16, 17⟩, ⟨bytes "7", by decide⟩),
    (⟨.string, 19, 28⟩, ⟨bytes "time_left", by decide⟩),
    (⟨.primitive, 30, 31⟩, ⟨bytes "5", by decide⟩),
    (⟨.string, 33, 47⟩, ⟨bytes "challenge_name", by decide⟩),
    (⟨.string, 50, 61⟩, ⟨bytes "sorted_list", by decide⟩),
    (⟨.string, 64, 75⟩, ⟨bytes "hash_prefix", by decide⟩),
    (⟨.string, 78, 80⟩, ⟨bytes "00", by decide⟩),
    (⟨.string, 83, 101⟩, ⟨bytes "last_solution_hash", by decide⟩),
    (⟨.string, 104, 168⟩, ⟨List.replicate 64 48, by decide⟩),
    (⟨.string, 171, 181⟩, ⟨bytes "parameters", by decide⟩),
    (⟨.string, 185, 196⟩, ⟨bytes "nb_elements", by decide⟩),
    (⟨.primitive, 198, 199⟩, ⟨bytes "3", by decide⟩),
    (⟨.string, 202, 206⟩, ⟨bytes "type", by decide⟩),
    (⟨.string, 209, 210⟩, ⟨bytes "x", by decide⟩)]

def shortToks : List Token :=
  ⟨.object, 0, 212⟩ :: (shortSpells.take 11).map Prod.fst ++
    ⟨.object, 183, 200⟩ :: (shortSpells.drop 11).map Prod.fst

def shortParams : Members :=
  .scalar ⟨bytes "nb_elements", by decide⟩ (.primitive ⟨bytes "3", by decide⟩) .nil

def shortMembers : Members :=
  .scalar ⟨bytes "challenge_id", by decide⟩ (.primitive ⟨bytes "7", by decide⟩) <|
  .scalar ⟨bytes "time_left", by decide⟩ (.primitive ⟨bytes "5", by decide⟩) <|
  .scalar ⟨bytes "challenge_name", by decide⟩ (.string ⟨bytes "sorted_list", by decide⟩) <|
  .scalar ⟨bytes "hash_prefix", by decide⟩ (.string ⟨bytes "00", by decide⟩) <|
  .scalar ⟨bytes "last_solution_hash", by decide⟩ (.string ⟨List.replicate 64 48, by decide⟩) <|
  .object ⟨bytes "parameters", by decide⟩ shortParams <|
  .scalar ⟨bytes "type", by decide⟩ (.string ⟨bytes "x", by decide⟩) .nil

def shortAsked : Asked where
  id := 7
  left := 5
  task := .sorted 3
  last := List.replicate 32 0
  pfix := [0]
  id_lt := by decide
  left_lt := by decide
  params_lt := by decide
  last_length := rfl
  pfix_length := by decide

/-- What jsmn gives for it, where a NUL ends the text. -/
def shortJsmn : Jsmn := fun bs =>
  if bs.takeWhile (· ≠ 0) = shortText then some shortToks else none

theorem short_sent (b : Buf) (r : List UInt8) :
    shortAsked.Sent (store b 0 (shortText ++ r)) shortToks := by
  have hdoc : Document (store b 0 (shortText ++ r)) shortMembers shortToks := by
    have hspell : ∀ p ∈ shortSpells, Spells shortText p := by decide +kernel
    have hover : ∀ p ∈ shortSpells, p.1.Over (store b 0 (shortText ++ r)) p.1.type p.2 :=
      fun p hp => ((hspell p hp).append r).token b
    simp only [shortSpells, List.forall_mem_cons] at hover
    obtain ⟨h₁, h₂, h₃, h₄, h₅, h₆, h₇, h₈, h₉, h₁₀, h₁₁, h₁₂, h₁₃, h₁₄, h₁₅, -⟩ := hover
    have hparams : Tokens (store b 0 (shortText ++ r)) shortParams [_, _] := .scalar h₁₂ h₁₃ .nil
    exact ⟨_, _, rfl, rfl, .scalar h₁ h₂ <| .scalar h₃ h₄ <| .scalar h₅ h₆ <| .scalar h₇ h₈ <|
      .scalar h₉ h₁₀ <| .object h₁₁ rfl hparams <| .scalar h₁₄ h₁₅ .nil⟩
  have hbounded : shortMembers.Bounded := by
    refine ⟨?_, ?_, ?_, ?_, ?_, ?_, ?_, ?_, ?_, ?_, ?_, ⟨?_, ?_, trivial⟩, ?_, ?_, trivial⟩ <;>
      decide
  exact ⟨shortMembers, _, hdoc, hbounded, .swap _ _ _, by decide⟩

theorem short_jsmn (r : List UInt8) : shortJsmn (shortText ++ 0 :: r) = some shortToks := by
  have hnul : ∀ c ∈ shortText, decide (c ≠ 0) = true := by decide +kernel
  rw [shortJsmn, List.takeWhile_append_of_pos hnul]
  simp

/-- For the nonce 17, none of the three numbers is a zero. -/
theorem short_plain : shortAsked.Plain zeros 17 := by
  have hne : ∀ k, k < 3 → number (shortAsked.seed zeros 17) k ≠ 0 := by decide +kernel
  intro _ k hk
  exact hne k hk

end Oin17.Chals.Solvers
