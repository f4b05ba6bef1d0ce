import Mathlib.Algebra.BigOperators.Group.Finset.Basic
import Oin17.Lib.Refine
import Oin17.Ws.Mbuf

namespace Oin17.Ws
open Links Loop Memory Refine Run

/-- The mbufs, and the heads of the queues that they make. -/
structure Mqs (κ : Type) where
  pool : Pool
  head : κ → Option Slot

/-- `mbuf` and then `mbufq`, or `mbufp`. -/
inductive Qop (κ : Type) where
  | enqueue (k : κ) (buf : List UInt8)
  | pop (k : κ) (plen : Nat)

/-- What a call returns, with the bytes it copies out. -/
structure Qout where
  r : Int
  buf : List UInt8

/-- A message has its bytes, and `mbuf` checks the other bound. -/
def Qop.Fits {κ : Type} : Qop κ → Prop
  | .enqueue _ buf => buf ≠ [] ∧ buf.length ≤ maxmsglen
  | .pop _ _ => True

section Fifo
variable {κ : Type} {s : Mqs κ} {a : κ → List (List UInt8)} {q : κ → List Slot}

def Mqs.step [DecidableEq κ] (s : Mqs κ) : Qop κ → Option (Qout × Mqs κ)
  | .enqueue k buf => do
    let (m, p) ← mbuf s.pool buf
    let (r, p) ← mbufq p (s.head k) m
    return ({ r := 0, buf := [] }, { pool := p, head := Function.update s.head k r })
  | .pop k plen =>
    let q := mbufp s.pool (s.head k) plen
    some ({ r := q.r, buf := q.buf }, { pool := q.pool, head := Function.update s.head k q.mb })

/-- What the queues are for: each one gives its messages in the order in which it
got them, and there is room for 16 in all. -/
def fifo [Fintype κ] [DecidableEq κ] (a : κ → List (List UInt8)) :
    Qop κ → Option (Qout × (κ → List (List UInt8)))
  | .enqueue k buf =>
    if ∑ k, (a k).length = maxmbufs then none
    else some ({ r := 0, buf := [] }, Function.update a k (a k ++ [buf]))
  | .pop k plen => match a k with
    | [] => some ({ r := 0, buf := [] }, a)
    | b :: t =>
      if plen < b.length then some ({ r := -1, buf := [] }, a)
      else some ({ r := b.length, buf := b }, Function.update a k t)

/-- The queues are made of the mbufs `q`, which hold the messages `a`. Any other
mbuf is free. -/
structure Represents (s : Mqs κ) (a : κ → List (List UInt8)) (q : κ → List Slot) : Prop where
  queues : Queues s.pool s.head q
  text : ∀ k, (q k).map s.pool.text = a k
  queued : ∀ m, ¬ s.pool.Free m → ∃ k, m ∈ q k

/-- The queues hold each mbuf once, so together they are as long as there are mbufs in use. -/
theorem Represents.full_iff [Fintype κ] (h : Represents s a q) :
    ∑ k, (a k).length = maxmbufs ↔ ∀ m, ¬ s.pool.Free m := by
  have hlen : ∀ k, (a k).length = (q k).toFinset.card := by
    intro k
    rw [← h.text k, List.length_map, List.toFinset_card_of_nodup (h.queues.chain k).nodup]
  have hapart : Set.PairwiseDisjoint (Finset.univ : Finset κ) fun k => (q k).toFinset := by
    intro k _ k' _ hne
    refine Finset.disjoint_left.mpr fun m hm hm' => ?_
    exact h.queues.apart k k' hne m (List.mem_toFinset.mp hm) (List.mem_toFinset.mp hm')
  have hcard : ∀ t : Finset Slot, t.card = maxmbufs ↔ t = Finset.univ := by
    intro t
    rw [← Finset.card_eq_iff_eq_univ, Fintype.card_fin]
  rw [Finset.sum_congr rfl fun k _ => hlen k, ← Finset.card_biUnion hapart, hcard,
    Finset.eq_univ_iff_forall]
  refine forall_congr' fun m => ?_
  simp only [Finset.mem_biUnion, Finset.mem_univ, true_and, List.mem_toFinset]
  exact ⟨fun ⟨k, hk⟩ => h.queues.used k m hk, h.queued m⟩

/-- `mbuf` finds a free mbuf, or there is none. -/
theorem mbuf_none_iff {p : Pool} (hl : buf.length ≤ maxmsglen) :
    mbuf p buf = none ↔ ∀ m, ¬ p.Free m := by
  constructor
  · intro h m hm
    obtain ⟨r, hr⟩ := mbuf_total hm hl
    rw [h] at hr
    cases hr
  · intro h
    apply Option.eq_none_iff_forall_ne_some.mpr
    rintro ⟨m, p'⟩ hm
    exact h m (mbuf_some hm).1

variable [DecidableEq κ]

theorem Represents.enqueue (h : Represents s a q) (hbuf : buf ≠ [])
    (hm : mbuf s.pool buf = some (m, p)) (k : κ) :
    ∃ t, s.step (.enqueue k buf) = some (⟨0, []⟩, t) ∧
      Represents t (Function.update a k (a k ++ [buf])) (Function.update q k (q k ++ [m])) := by
  obtain ⟨r, p', hq, henq, hnew, hqueues⟩ := h.queues.enqueue hbuf hm k
  refine ⟨⟨p', Function.update s.head k r⟩, ?_, hqueues, fun k' => ?_, fun x hx => ?_⟩
  · simp [Mqs.step, hm, hq]
  · have hold : ∀ k', (q k').map p'.text = a k' := by
      intro k'
      rw [← h.text k']
      exact List.map_congr_left fun x hx => (henq.others x fun he => hnew k' (he ▸ hx)).2
    by_cases hk : k' = k
    · subst hk
      rw [Function.update_self, Function.update_self, List.map_append, hold, List.map_singleton,
        henq.text]
    · rw [Function.update_of_ne hk, Function.update_of_ne hk, hold]
  · by_cases hxm : x = m
    · exact ⟨k, by simp [hxm]⟩
    · have hused : ¬ s.pool.Free x := by
        rwa [Pool.Free, ← (henq.others x hxm).1]
      obtain ⟨k', hk'⟩ := h.queued x hused
      by_cases hk : k' = k
      · subst hk
        exact ⟨k', by simp [hk']⟩
      · exact ⟨k', by rwa [Function.update_of_ne hk]⟩

theorem Represents.pop_nil (h : Represents s a q) (hk : q k = []) (plen : Nat) :
    s.step (.pop k plen) = some (⟨0, []⟩, s) := by
  have hhead : s.head k = none := (h.queues.chain k).nil_iff.mpr hk
  rw [Mqs.step, h.queues.mbufp_nil hk, ← hhead, Function.update_eq_self]

/-- A message that does not fit stays where it is. -/
theorem step_small (hk : s.head k = some m) (hl : plen < (s.pool.mbufs m).len) :
    s.step (.pop k plen) = some (⟨-1, []⟩, s) := by
  rw [Mqs.step, hk, mbufp, if_pos hl, ← hk, Function.update_eq_self]

theorem step_refused {s t : Mqs κ} (h : s.step (.pop k plen) = some (o, t)) (hr : o.r = -1) :
    t = s := by
  rw [Mqs.step] at h
  obtain ⟨rfl, rfl⟩ := Prod.mk.inj (Option.some.inj h)
  cases hk : s.head k with
  | none => simp [hk, mbufp] at hr
  | some m =>
    by_cases hl : plen < (s.pool.mbufs m).len
    · rw [mbufp, if_pos hl, ← hk, Function.update_eq_self]
    · rw [hk, mbufp, if_neg hl] at hr
      dsimp only at hr
      omega

theorem Represents.pop (h : Represents s a q) (hk : q k = m :: ms)
    (hl : (s.pool.mbufs m).len ≤ plen) :
    ∃ t, s.step (.pop k plen) = some (⟨(s.pool.mbufs m).len, s.pool.text m⟩, t) ∧
      Represents t (Function.update a k (a k).tail) (Function.update q k ms) := by
  obtain ⟨r, hpop, hqueues⟩ := h.queues.dequeue hk hl
  have hother : ∀ x, x ≠ m →
      (s.pool.upd m fun m => { m with len := 0 }).mbufs x = s.pool.mbufs x := by
    intro x hx
    simp [Pool.upd, hx]
  have hmk : m ∈ q k := hk ▸ List.mem_cons_self
  have hms : m ∉ ms := by
    have := (h.queues.chain k).nodup
    rw [hk] at this
    exact (List.nodup_cons.mp this).1
  have hold : ∀ l : List Slot, m ∉ l →
      l.map (s.pool.upd m fun m => { m with len := 0 }).text = l.map s.pool.text := by
    intro l hml
    refine List.map_congr_left fun x hx => ?_
    rw [Pool.text, hother x fun he => hml (he ▸ hx), Pool.text]
  refine ⟨⟨s.pool.upd m fun m => { m with len := 0 }, Function.update s.head k r⟩, ?_, hqueues,
    fun k' => ?_, fun x hx => ?_⟩
  · rw [Mqs.step, hpop]
  · by_cases hk' : k' = k
    · subst hk'
      rw [Function.update_self, Function.update_self, hold ms hms, ← h.text k', hk]
      rfl
    · rw [Function.update_of_ne hk', Function.update_of_ne hk',
        hold _ fun hm => h.queues.apart k k' (Ne.symm hk') m hmk hm, h.text]
  · have hxm : x ≠ m := by
      rintro rfl
      exact hx (by simp [Pool.Free, Pool.upd])
    obtain ⟨k', hk'⟩ := h.queued x (by rwa [Pool.Free, ← hother x hxm])
    by_cases hkk : k' = k
    · subst hkk
      rw [hk] at hk'
      exact ⟨k', by simpa using (List.mem_cons.mp hk').resolve_left hxm⟩
    · exact ⟨k', by rwa [Function.update_of_ne hkk]⟩

/-- The mbufs are a bank of queues. -/
theorem mqs_refines [Fintype κ] :
    Refines (Mqs.step (κ := κ)) fifo (fun s a => ∃ q, Represents s a q) Qop.Fits := by
  rintro s a op ⟨q, h⟩ hop
  cases op with
  | enqueue k buf =>
    obtain ⟨hbuf, hl⟩ := hop
    by_cases hfull : ∑ k, (a k).length = maxmbufs
    · have hnone := (mbuf_none_iff hl).mpr (h.full_iff.mp hfull)
      rw [fifo, if_pos hfull, Mqs.step, hnone]
      exact .none
    · obtain ⟨⟨m, p⟩, hm⟩ := Option.ne_none_iff_exists'.mp fun hnone =>
        hfull (h.full_iff.mpr ((mbuf_none_iff hl).mp hnone))
      obtain ⟨t, ht, hrep⟩ := h.enqueue hbuf hm k
      rw [fifo, if_neg hfull, ht]
      exact .some ⟨rfl, _, hrep⟩
  | pop k plen =>
    have htext := h.text k
    cases hk : q k with
    | nil =>
      rw [hk] at htext
      rw [h.pop_nil hk, fifo, ← htext]
      exact .some ⟨rfl, q, h⟩
    | cons m ms =>
      rw [hk, List.map_cons] at htext
      have hlen : (s.pool.text m).length = (s.pool.mbufs m).len := load_length _ _ _
      rw [fifo, ← htext]
      dsimp only
      rw [hlen]
      by_cases hsmall : plen < (s.pool.mbufs m).len
      · have hchain := h.queues.chain k
        rw [hk] at hchain
        rw [if_pos hsmall, step_small hchain.head hsmall]
        exact .some ⟨rfl, q, h⟩
      · obtain ⟨t, ht, hrep⟩ := h.pop hk (Nat.not_lt.mp hsmall)
        rw [← htext] at hrep
        rw [if_neg hsmall, ht]
        exact .some ⟨rfl, _, hrep⟩

/-- From mbufs that are all free, in any order of calls on any number of queues: the
queues give and refuse what those of `fifo` do, they never share an mbuf, and what a
queue refuses to give leaves everything as it is. -/
theorem mbufs_fifo [Fintype κ] (p : Pool) (hp : ∀ m, p.Free m) (ops : List (Qop κ))
    (hops : ∀ op ∈ ops, op.Fits) :
    answers Mqs.step { pool := p, head := fun _ => none } ops = answers fifo (fun _ => []) ops ∧
    Always (next Mqs.step) (fun s => ∃ q, Queues s.pool s.head q)
      { pool := p, head := fun _ => none } ops ∧
    ∀ (s t : Mqs κ) k plen o, s.step (.pop k plen) = some (o, t) → o.r = -1 → t = s := by
  have hinit : ∃ q, Represents (κ := κ) { pool := p, head := fun _ => none } (fun _ => []) q :=
    ⟨fun _ => [], ⟨fun _ => .nil, by simp, by simp⟩, fun _ => rfl, fun m hm => absurd (hp m) hm⟩
  refine ⟨mqs_refines.answers_eq hinit hops, ?_, fun s t k plen o => step_refused⟩
  exact mqs_refines.always (fun s a ⟨q, h⟩ => ⟨q, h.queues⟩) hinit hops

end Fifo

/-- The pool as it is when the program starts. -/
def Pool.zero : Pool := { mbufs := fun _ => { len := 0, buf := fun _ => 0, next := none }, i := 0 }

/-- Seventeen messages on two queues, with one taken out too early for its buffer. -/
theorem mbufs_fifo_full :
    answers Mqs.step { pool := Pool.zero, head := fun _ : Bool => none }
        (.enqueue true [1, 2] :: .pop true 1 :: List.replicate 16 (.enqueue false [3])) =
      answers fifo (fun _ => [])
        (.enqueue true [1, 2] :: .pop true 1 :: List.replicate 16 (.enqueue false [3])) :=
  (mbufs_fifo Pool.zero (fun _ => rfl) _ (by simp [Qop.Fits, maxmsglen])).1

end Oin17.Ws
