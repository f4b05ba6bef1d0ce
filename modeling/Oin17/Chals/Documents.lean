import Mathlib.Data.List.Forall2
import Mathlib.Data.List.Perm.Basic
import Oin17.Chals.Fields

namespace Oin17.Chals
open Memory Utils

/-- Text as it stands in a message, which jsmn reads up to its first NUL. -/
abbrev Text := { s : List UInt8 // 0 ∉ s }

inductive Scalar where
  | string (text : Text)
  | primitive (text : Text)

def Scalar.text : Scalar → Text
  | .string s | .primitive s => s

def Scalar.type : Scalar → TokenType
  | .string _ => .string
  | .primitive _ => .primitive

/-- The members of an object. -/
inductive Members where
  | nil
  | scalar (key : Text) (val : Scalar) (rest : Members)
  | object (key : Text) (val rest : Members)

/-- The keys with a scalar value, in the order of the document. -/
def Members.leaves : Members → List (Text × Text)
  | .nil => []
  | .scalar key val rest => (key, val.text) :: rest.leaves
  | .object _ val rest => val.leaves ++ rest.leaves

/-- The keys and values fit the buffers of `parse_toks`. -/
def Members.Bounded : Members → Prop
  | .nil => True
  | .scalar key val rest => key.1.length < 64 ∧ val.text.1.length < 256 ∧ rest.Bounded
  | .object key val rest => key.1.length < 64 ∧ val.Bounded ∧ rest.Bounded

/-- A token of a type, over a text. -/
structure Token.Over (buf : Buf) (t : Token) (type : TokenType) (text : Text) : Prop where
  type : t.type = type
  bounds : t.start ≤ t.stop
  text : load buf t.start (t.stop - t.start) = text.1

/-- The tokens of the members of an object, in the order of the document. -/
inductive Tokens (buf : Buf) : Members → List Token → Prop where
  | nil : Tokens buf .nil []
  | scalar (hk : tk.Over buf .string key) (hv : tv.Over buf val.type val.text)
      (hrest : Tokens buf rest ts) : Tokens buf (.scalar key val rest) (tk :: tv :: ts)
  | object (hk : tk.Over buf .string key) (ho : tb.type = .object) (hin : Tokens buf val us)
      (hrest : Tokens buf rest ts) : Tokens buf (.object key val rest) (tk :: tb :: (us ++ ts))

/-- The tokens of an object: the first one is the object itself. -/
def Document (buf : Buf) (m : Members) (toks : List Token) : Prop :=
  ∃ t ts, toks = t :: ts ∧ t.type = .object ∧ Tokens buf m ts

/-- Buffers that hold a key and a value. -/
structure Held (p : Buf × Buf) (l : Text × Text) : Prop where
  key : cstr p.1 64 = l.1.1
  val : cstr p.2 256 = l.2.1
  text : Holds p.2 0 l.2.1

/-- A name that `__parse_toks` does not know. -/
def Unknown (l : Text × Text) : Prop := field l.1.1 = some .type ∧ chalType l.2.1 = none

/-- The pair writes the field. -/
def Sets (l : Text × Text) (f : Field) : Prop := field l.1.1 = some f ∧ ¬ Unknown l

/-- No two pairs write the same field. -/
def Separate (ls : List (Text × Text)) : Prop := ls.Pairwise fun l l' => ∀ f, Sets l f → ¬ Sets l' f

/-- No value exceeds its field, and the prefix is made of whole bytes. -/
structure Fits (l : Text × Text) : Prop where
  lhash : field l.1.1 = some .lhash → l.2.1.length ≤ 2 * sha256Len
  pfix : field l.1.1 = some .pfix → l.2.1.length ≤ 2 * sha256Len ∧ l.2.1.length % 2 = 0

/-- What a known pair leaves in the challenge. -/
def Chal.put (c : Chal) (l : Text × Text) : Chal :=
  match field l.1.1 with
  | some .left => { c with left := .ofInt (strtol l.2.1) }
  | some .size => { c with size := .ofInt (strtol l.2.1) }
  | some .nblks => { c with nblks := .ofInt (strtol l.2.1) }
  | some .type => { c with type := (chalType l.2.1).getD c.type }
  | some .pfix => { c with pfix := store c.pfix 0 (hexBytes l.2.1), plen := l.2.1.length / 2 }
  | some .id => { c with id := .ofInt (strtol l.2.1) }
  | some .lhash => { c with lhash := store c.lhash 0 (l.2.1 ++ [0]) }
  | none => c

section Reading
variable {buf : Buf} {m : Members} {ts : List Token}

theorem Token.Over.tokcpy {t : Token} {type : TokenType} {text : Text} (h : t.Over buf type text)
    (hn : text.1.length < n) (dst : Buf) :
    ∃ b, tokcpy buf dst n t = some b ∧ cstr b n = text.1 ∧ Holds b 0 text.1 := by
  have hlen : text.1.length = t.stop - t.start := by
    rw [← h.text, load_length]
  have hholds : Holds (Function.update (store dst 0 (load buf t.start (t.stop - t.start)))
      (t.stop - t.start) 0) 0 text.1 := by
    constructor
    · rw [load_congr (c := store dst 0 text.1), load_store]
      intro i _ hi
      rw [Function.update_of_ne (by omega), h.text]
    · rw [Nat.zero_add, hlen, Function.update_self]
  exact ⟨_, if_pos ⟨h.bounds, hlen ▸ hn⟩, hholds.cstr text.2 hn, hholds⟩

/-- A key is followed by its own value, or by an object that makes it forgotten. -/
theorem Tokens.pairs (h : Tokens buf m ts) (hb : m.Bounded) (us : List Token) {s : Toks}
    (hd : s.d = 0) : ∃ ps s', s'.d = 0 ∧ List.Forall₂ Held ps m.leaves ∧
      pairs buf (ts ++ us) s = (Chals.pairs buf us s').map (ps ++ ·) := by
  induction h generalizing us s with
  | nil => exact ⟨[], s, hd, .nil, by simp⟩
  | @scalar rest ts key val tk tv hk hv hrest ih =>
    obtain ⟨hkey, hval, hb⟩ := hb
    obtain ⟨k, hcopy, hkc, -⟩ := hk.tokcpy hkey s.k
    obtain ⟨v, hcopy', hvc, hvh⟩ := hv.tokcpy hval s.v
    have htk : s.take buf tk = some { s with k := k, d := 1 } := by
      simp only [Toks.take, hk.type, hd, if_true, hcopy, Option.map_some]
    have htv : Toks.take buf { s with k := k, d := 1 } tv =
        some { s with k := k, v := v, d := 2 } := by
      cases val <;>
        simp only [Toks.take, hv.type, Scalar.type, hcopy', Option.map_some, if_neg one_ne_zero]
    obtain ⟨ps, s', hs', hps, heq⟩ := ih hb us (s := { s with k := k, v := v, d := 0 }) rfl
    refine ⟨(k, v) :: ps, s', hs', .cons ⟨hkc, hvc, hvh⟩ hps, ?_⟩
    have htype : ¬ (tv.type = .array ∨ tv.type = .undefined) := by
      rw [hv.type]
      cases val <;> simp [Scalar.type]
    rw [List.cons_append, Chals.pairs, if_neg (by simp [hk.type]), htk, Option.bind_some,
      if_neg (by simp), List.cons_append, Chals.pairs, if_neg htype, htv, Option.bind_some,
      if_pos rfl, heq, Option.map_map]
    rfl
  | @object val us' rest ts key tk tb hk ho hin hrest ihin ih =>
    obtain ⟨hkey, hbin, hb⟩ := hb
    obtain ⟨k, hcopy, -, -⟩ := hk.tokcpy hkey s.k
    have htk : s.take buf tk = some { s with k := k, d := 1 } := by
      simp only [Toks.take, hk.type, hd, if_true, hcopy, Option.map_some]
    have htb : Toks.take buf { s with k := k, d := 1 } tb = some { s with k := k, d := 0 } := by
      simp only [Toks.take, ho]
    obtain ⟨ps, s', hs', hps, heq⟩ := ihin hbin (ts ++ us) (s := { s with k := k, d := 0 }) rfl
    obtain ⟨qs, s'', hs'', hqs, heq'⟩ := ih hb us hs'
    refine ⟨ps ++ qs, s'', hs'', List.rel_append hps hqs, ?_⟩
    rw [List.cons_append, Chals.pairs, if_neg (by simp [hk.type]), htk, Option.bind_some,
      if_neg (by simp), List.cons_append, Chals.pairs, if_neg (by simp [ho]), htb,
      Option.bind_some, if_neg (by simp), List.append_assoc, heq, heq', Option.map_map]
    simp only [Function.comp_def, List.append_assoc]

theorem Document.pairs (h : Document buf m toks) (hb : m.Bounded) (k v : Buf) (chal : Chal) :
    ∃ ps, List.Forall₂ Held ps m.leaves ∧
      Chals.pairs buf (toks.drop 1) { d := 0, k := k, v := v, chal := chal } = some ps := by
  obtain ⟨t, ts, rfl, -, hts⟩ := h
  obtain ⟨ps, s', -, hps, heq⟩ :=
    hts.pairs hb [] (s := { d := 0, k := k, v := v, chal := chal }) rfl
  refine ⟨ps, hps, ?_⟩
  rw [List.append_nil] at heq
  rw [List.drop_one, List.tail_cons, heq, Chals.pairs, Option.map_some, List.append_nil]

end Reading

section Writing
variable {ps : List (Buf × Buf)} {ls : List (Text × Text)} {l : Text × Text} {c c' : Chal}

theorem packs_text (hs : Holds b i s) (he : s.length % 2 = 0) :
    packs b i (s.length / 2) = hexBytes s := by
  induction s using hexBytes.induct generalizing i with
  | case1 x y t ih =>
    have ht := hs.tail.tail
    rw [List.length_cons, List.length_cons] at he ⊢
    rw [show (t.length + 1 + 1) / 2 = t.length / 2 + 1 by omega, packs_succ, hexBytes, hs.head,
      hs.tail.head, ih ht (by omega)]
  | case2 t hne =>
    cases t with
    | nil => rfl
    | cons x t =>
      cases t with
      | nil => simp at he
      | cons y t => exact absurd rfl (hne x y t)

theorem hexLen_text (hs : Holds b 0 s) (hz : 0 ∉ s) (he : s.length % 2 = 0) :
    HexLen b (s.length / 2) := by
  constructor
  · rw [show 2 * (s.length / 2) = 0 + s.length by omega]
    exact hs.2
  · intro k hk h0
    have hlt : 2 * k < (load b 0 s.length).length := by
      rw [load_length]
      omega
    have hmem := List.getElem_mem hlt
    rw [load_getElem, Nat.zero_add, h0, hs.1] at hmem
    exact hz hmem

theorem Held.parsed_unknown (h : Held (k, v) l) (hl : Unknown l) (c : Chal) :
    Parsed k v c (-1) c :=
  .unknown (h.key ▸ hl.1) (h.val ▸ hl.2)

theorem Held.parsed (h : Held (k, v) l) (hf : Fits l) (hl : ¬ Unknown l) (c : Chal) :
    Parsed k v c 0 (c.put l) := by
  obtain ⟨hkey, hval, htext⟩ := h
  unfold Chal.put
  rw [← hkey, ← hval]
  cases hk : field (cstr k 64) with
  | none => exact .other hk
  | some f =>
    have hk' : field l.1.1 = some f := hkey ▸ hk
    cases f with
    | left => exact .left hk
    | size => exact .size hk
    | nblks => exact .nblks hk
    | type =>
      obtain ⟨t, ht⟩ := Option.ne_none_iff_exists'.mp fun hn => hl ⟨hk', hn⟩
      rw [← hval] at ht
      rw [ht]
      exact .type hk ht
    | pfix =>
      obtain ⟨hle, he⟩ := hf.pfix hk'
      have hlen := hexLen_text htext l.2.2 he
      rw [hval, ← packs_text htext he]
      exact .pfix hk hlen (by omega)
    | id => exact .id hk
    | lhash => exact .lhash hk (hval ▸ hf.lhash hk')

theorem callAll_put (h : List.Forall₂ Held ps ls) (hf : ∀ l ∈ ls, Fits l)
    (hl : ∀ l ∈ ls, ¬ Unknown l) (c : Chal) :
    callAll parseTok ps c = some (0, ls.foldl Chal.put c) := by
  induction h generalizing c with
  | nil => rfl
  | @cons p l ps ls hp hps ih =>
    rw [List.forall_mem_cons] at hf hl
    rw [callAll, parseTok_iff.mpr (Held.parsed hp hf.1 hl.1 c), Option.bind_some]
    exact ih hf.2 hl.2 (c.put l)

theorem callAll_unknown (h : List.Forall₂ Held ps ls) (hf : ∀ l ∈ ls, Fits l)
    (hl : ∃ l ∈ ls, Unknown l) (c : Chal) : ∃ d, callAll parseTok ps c = some (-1, d) := by
  induction h generalizing c with
  | nil =>
    obtain ⟨l, hl, -⟩ := hl
    cases hl
  | @cons p l ps ls hp hps ih =>
    rw [List.forall_mem_cons] at hf
    rw [callAll]
    by_cases hu : Unknown l
    · rw [parseTok_iff.mpr (hp.parsed_unknown hu c)]
      exact ⟨c, rfl⟩
    · rw [parseTok_iff.mpr (Held.parsed hp hf.1 hu c), Option.bind_some]
      refine ih hf.2 ?_ (c.put l)
      obtain ⟨l', hl', hu'⟩ := hl
      rcases List.mem_cons.mp hl' with rfl | hl'
      · exact absurd hu' hu
      · exact ⟨l', hl', hu'⟩

/-- The calls stop at a name that is not known, and at nothing else. -/
theorem callAll_stops (h : List.Forall₂ Held ps ls) (hr : r ≠ 0)
    (hcall : callAll parseTok ps c = some (r, d)) : r = -1 ∧ ∃ n l, ls[n]? = some l ∧ Unknown l ∧
      callAll parseTok (ps.take n) c = some (0, d) := by
  induction h generalizing c with
  | nil =>
    obtain ⟨rfl, -⟩ := Prod.mk.inj (Option.some.inj hcall)
    exact absurd rfl hr
  | @cons p l ps ls hp hps ih =>
    obtain ⟨k, v⟩ := p
    obtain ⟨⟨r', e⟩, he, hcall⟩ := Option.bind_eq_some_iff.mp hcall
    have hparsed := parseTok_iff.mp he
    dsimp only at hcall
    split at hcall
    · next hr' =>
      obtain ⟨rfl, rfl⟩ := Prod.mk.inj (Option.some.inj hcall)
      cases hparsed with
      | unknown hk hv => exact ⟨rfl, 0, l, rfl, ⟨hp.key ▸ hk, hp.val ▸ hv⟩, rfl⟩
      | left | size | nblks | type | pfix | id | lhash | other => exact absurd rfl hr'
    · next hr' =>
      obtain rfl := not_not.mp hr'
      obtain ⟨rfl, n, l', hn, hu, hcall⟩ := ih hcall
      refine ⟨rfl, n + 1, l', hn, hu, ?_⟩
      rw [List.take_succ_cons, callAll, he, Option.bind_some]
      exact hcall

theorem put_comm (h : ∀ f, field l.1.1 = some f → field l'.1.1 ≠ some f) (c : Chal) :
    (c.put l).put l' = (c.put l').put l := by
  unfold Chal.put
  cases hf : field l.1.1 with
  | none => rfl
  | some f =>
    cases hg : field l'.1.1 with
    | none => rfl
    | some g =>
      have hne : f ≠ g := fun he => h f hf (he ▸ hg)
      cases f <;> cases g <;> first | rfl | exact absurd rfl hne

/-- Pairs for different fields may come in any order. -/
theorem foldl_put_perm (hperm : ls.Perm ls') (hs : Separate ls) (hl : ∀ l ∈ ls, ¬ Unknown l)
    (c : Chal) : ls.foldl Chal.put c = ls'.foldl Chal.put c := by
  have hcomm : ls.Pairwise fun l l' => ∀ c : Chal, (c.put l).put l' = (c.put l').put l := by
    refine hs.imp_of_mem fun {l l'} hm hm' h => put_comm fun f hf hf' => ?_
    exact h f ⟨hf, hl l hm⟩ ⟨hf', hl l' hm'⟩
  have hall := List.Pairwise.forall_of_forall_of_flip (fun l _ c => rfl) hcomm
    (hcomm.imp fun h c => (h c).symm)
  exact hperm.foldl_eq' (fun l hm l' hm' c => hall hm hm' c) c

end Writing

/-- `parse_toks` calls on the leaves of a document, wherever they are nested, and
what it gives does not depend on their order. -/
theorem parse_leaves (h : Document buf m toks) (hb : m.Bounded) (k v : Buf) (chal : Chal) :
    (∃ ps, List.Forall₂ Held ps m.leaves ∧
      (∀ {σ : Type} (call : Buf → Buf → σ → Option (Int × σ)) (st : σ),
        feed call buf (toks.drop 1) ⟨0, k, v, chal⟩ st = callAll call ps st) ∧
      parseToks buf (toks.drop 1) ⟨0, k, v, chal⟩ = callAll parseTok ps chal ∧
      ∀ r c, parseToks buf (toks.drop 1) ⟨0, k, v, chal⟩ = some (r, c) → r ≠ 0 → r = -1 ∧
        ∃ n l, m.leaves[n]? = some l ∧ Unknown l ∧
          callAll parseTok (ps.take n) chal = some (0, c)) ∧
    ∀ buf' m' toks' k' v', Document buf' m' toks' → m'.Bounded → m.leaves.Perm m'.leaves →
      Separate m.leaves → (∀ l ∈ m.leaves, Fits l) →
      ∃ r c c', parseToks buf (toks.drop 1) ⟨0, k, v, chal⟩ = some (r, c) ∧
        parseToks buf' (toks'.drop 1) ⟨0, k', v', chal⟩ = some (r, c') ∧ (r = 0 → c = c') := by
  obtain ⟨ps, hps, hpairs⟩ := h.pairs hb k v chal
  have hrun : parseToks buf (toks.drop 1) ⟨0, k, v, chal⟩ = callAll parseTok ps chal :=
    (parseToks_feed buf _ ⟨0, k, v, chal⟩ chal).trans (feed_pairs hpairs chal)
  constructor
  · refine ⟨ps, hps, fun call st => feed_pairs hpairs st, hrun, fun r c hr hne => ?_⟩
    exact callAll_stops hps hne (hrun.symm.trans hr)
  · intro buf' m' toks' k' v' h' hb' hperm hs hf
    obtain ⟨ps', hps', hpairs'⟩ := h'.pairs hb' k' v' chal
    have hrun' : parseToks buf' (toks'.drop 1) ⟨0, k', v', chal⟩ = callAll parseTok ps' chal :=
      (parseToks_feed buf' _ ⟨0, k', v', chal⟩ chal).trans (feed_pairs hpairs' chal)
    have hf' : ∀ l ∈ m'.leaves, Fits l := fun l hl => hf l (hperm.mem_iff.mpr hl)
    by_cases hu : ∃ l ∈ m.leaves, Unknown l
    · obtain ⟨c, hc⟩ := callAll_unknown hps hf hu chal
      obtain ⟨l, hl, hu⟩ := hu
      obtain ⟨c', hc'⟩ := callAll_unknown hps' hf' ⟨l, hperm.mem_iff.mp hl, hu⟩ chal
      refine ⟨-1, c, c', hrun.trans hc, hrun'.trans hc', fun h0 => ?_⟩
      cases h0
    · have hknown : ∀ l ∈ m.leaves, ¬ Unknown l := fun l hl hul => hu ⟨l, hl, hul⟩
      refine ⟨0, _, _, hrun.trans (callAll_put hps hf hknown chal), hrun'.trans
        (callAll_put hps' hf' (fun l hl => hknown l (hperm.mem_iff.mpr hl)) chal), fun _ => ?_⟩
      exact foldl_put_perm hperm hs hknown chal

/-- A time and an identifier, in the two orders, with the time in an object of its own. -/
theorem parse_two_leaves : ∃ r c c',
    parseToks (store (fun _ => 0) 0 (bytes "\x7b\"time_left\":5,\"challenge_id\":7\x7d"))
      [⟨.string, 2, 11⟩, ⟨.primitive, 13, 14⟩, ⟨.string, 16, 28⟩, ⟨.primitive, 30, 31⟩]
      ⟨0, fun _ => 0, fun _ => 0, 0, fun _ => 0, 0, 0, fun _ => 0, 0, 0, 0⟩ = some (r, c) ∧
    parseToks (store (fun _ => 0) 0
        (bytes "\x7b\"challenge_id\":7,\"p\":\x7b\"time_left\":5\x7d\x7d"))
      [⟨.string, 2, 14⟩, ⟨.primitive, 16, 17⟩, ⟨.string, 19, 20⟩, ⟨.object, 22, 37⟩,
        ⟨.string, 24, 33⟩, ⟨.primitive, 35, 36⟩]
      ⟨0, fun _ => 1, fun _ => 1, 0, fun _ => 0, 0, 0, fun _ => 0, 0, 0, 0⟩ = some (r, c') ∧
    (r = 0 → c = c') := by
  let time : Text := ⟨bytes "time_left", by decide⟩
  let ident : Text := ⟨bytes "challenge_id", by decide⟩
  let five : Scalar := .primitive ⟨bytes "5", by decide⟩
  let seven : Scalar := .primitive ⟨bytes "7", by decide⟩
  have h : Document
      (store (fun _ => 0) 0 (bytes "\x7b\"time_left\":5,\"challenge_id\":7\x7d"))
      (.scalar time five (.scalar ident seven .nil)) [⟨.object, 0, 32⟩, ⟨.string, 2, 11⟩,
        ⟨.primitive, 13, 14⟩, ⟨.string, 16, 28⟩, ⟨.primitive, 30, 31⟩] :=
    ⟨_, _, rfl, rfl, .scalar ⟨rfl, by decide, by decide +kernel⟩ ⟨rfl, by decide, by decide +kernel⟩
      (.scalar ⟨rfl, by decide, by decide +kernel⟩ ⟨rfl, by decide, by decide +kernel⟩ .nil)⟩
  have h' : Document (store (fun _ => 0) 0
        (bytes "\x7b\"challenge_id\":7,\"p\":\x7b\"time_left\":5\x7d\x7d"))
      (.scalar ident seven (.object ⟨bytes "p", by decide⟩ (.scalar time five .nil) .nil))
      [⟨.object, 0, 38⟩, ⟨.string, 2, 14⟩, ⟨.primitive, 16, 17⟩, ⟨.string, 19, 20⟩,
        ⟨.object, 22, 37⟩, ⟨.string, 24, 33⟩, ⟨.primitive, 35, 36⟩] :=
    ⟨_, _, rfl, rfl, .scalar ⟨rfl, by decide, by decide +kernel⟩ ⟨rfl, by decide, by decide +kernel⟩
      (.object ⟨rfl, by decide, by decide +kernel⟩ rfl
        (.scalar ⟨rfl, by decide, by decide +kernel⟩ ⟨rfl, by decide, by decide +kernel⟩ .nil) .nil)⟩
  have htime : field time.1 = some .left := rfl
  have hident : field ident.1 = some .id := rfl
  refine (parse_leaves h ⟨by decide, by decide, by decide, by decide, trivial⟩ _ _ _).2 _ _ _ _ _ h'
    ⟨by decide, by decide, by decide, ⟨by decide, by decide, trivial⟩, trivial⟩ (.swap _ _ _) ?_ ?_
  · refine List.pairwise_pair.mpr fun f hf hf' => ?_
    cases Option.some.inj (htime.symm.trans hf.1)
    cases hident.symm.trans hf'.1
  · intro l hl
    rcases List.mem_cons.mp hl with rfl | hl
    · exact ⟨fun hf => absurd (htime.symm.trans hf) (by decide),
        fun hf => absurd (htime.symm.trans hf) (by decide)⟩
    · obtain rfl := List.mem_singleton.mp hl
      exact ⟨fun hf => absurd (hident.symm.trans hf) (by decide),
        fun hf => absurd (hident.symm.trans hf) (by decide)⟩

end Oin17.Chals
