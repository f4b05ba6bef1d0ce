import Mathlib.Algebra.GroupWithZero.Nat
import Mathlib.Data.List.Nodup
import Mathlib.Data.Fintype.Card
import Oin17.Lib.Links
import Oin17.Lib.Loop
import Oin17.Lib.Memory

namespace Oin17.Ws
open Links Loop Memory

def maxmsglen : Nat := 1024

abbrev maxmbufs : Nat := 16

instance : NeZero maxmbufs := ⟨by decide⟩

/-- A pointer to an mbuf is its index, and nil is `none`. -/
abbrev Slot := Fin maxmbufs

structure Mbuf where
  len : Nat
  buf : Buf
  next : Option Slot

/-- The mbufs, and the index that `mbuf` keeps from one call to the next. -/
structure Pool where
  mbufs : Slot → Mbuf
  i : Slot

def Pool.upd (p : Pool) (m : Slot) (f : Mbuf → Mbuf) : Pool :=
  { p with mbufs := Function.update p.mbufs m (f (p.mbufs m)) }

/-- The search for a free mbuf from `i` on, which panics back at `l`. -/
def scan (p : Pool) (l : Slot) : Nat → Slot → Option Slot
  | 0, _ => none
  | n + 1, i =>
    if (p.mbufs i).len = 0 then some i
    else if l = i + 1 then none
    else scan p l n (i + 1)

/-- `none` is a panic. -/
def mbuf (p : Pool) (buf : List UInt8) : Option (Slot × Pool) :=
  if maxmsglen < buf.length then none
  else match scan p p.i maxmbufs p.i with
    | none => none
    | some i =>
      let p := { p with i := i }
      some (i, p.upd i fun m => { len := buf.length, buf := store m.buf 0 buf, next := none })

/-- One pass of the walk to the end of a queue. -/
def lastBody (p : Pool) (m : Slot) : Option (Slot ⊕ Slot) :=
  match (p.mbufs m).next with
  | some n => some (.inl n)
  | none => some (.inr m)

/-- The new head of the queue comes with the pool. A queue that does not end
within the number of mbufs never ends, and the call does not return. -/
def mbufq (p : Pool) (mb : Option Slot) (el : Slot) : Option (Option Slot × Pool) :=
  match mb with
  | none => some (some el, p)
  | some h => (run (lastBody p) (maxmbufs + 1) h).map fun m =>
      (some h, p.upd m fun m => { m with next := some el })

/-- What a call of `mbufp` returns, and the bytes it copies out. -/
structure Popped where
  r : Int
  buf : List UInt8
  mb : Option Slot
  pool : Pool

def mbufp (p : Pool) (pmb : Option Slot) (plen : Nat) : Popped :=
  match pmb with
  | none => { r := 0, buf := [], mb := none, pool := p }
  | some m =>
    if plen < (p.mbufs m).len then { r := -1, buf := [], mb := some m, pool := p }
    else
      { r := (p.mbufs m).len, buf := load (p.mbufs m).buf 0 (p.mbufs m).len,
        mb := (p.mbufs m).next, pool := p.upd m fun m => { m with len := 0 } }

/-- One pass of a loop that pops until there is nothing left. -/
def flushBody (s : Option Slot × Pool) : Option ((Option Slot × Pool) ⊕ (Option Slot × Pool)) :=
  let r := mbufp s.2 s.1 1024
  if r.r ≠ 0 then some (.inl (r.mb, r.pool)) else some (.inr (r.mb, r.pool))

/-- Every pass but the last one frees an mbuf. -/
def flush (p : Pool) (mb : Option Slot) : Option (Option Slot × Pool) :=
  run flushBody (maxmbufs + 1) (mb, p)

/-- The bytes an mbuf holds. -/
def Pool.text (p : Pool) (m : Slot) : List UInt8 := load (p.mbufs m).buf 0 (p.mbufs m).len

def Pool.Free (p : Pool) (m : Slot) : Prop := (p.mbufs m).len = 0

instance (p : Pool) (m : Slot) : Decidable (p.Free m) := by
  unfold Pool.Free
  infer_instance

section Scan
variable {p : Pool}

theorem scan_free (h : scan p l n i = some m) : p.Free m := by
  induction n generalizing i with
  | zero => cases h
  | succ n ih =>
    rw [scan] at h
    split at h
    · obtain rfl := Option.some.inj h
      assumption
    · split at h
      · cases h
      · exact ih h

/-- `k` mbufs after `l` the scan has passed none that is free. -/
theorem scan_from {m l i : Slot} (hm : p.Free m) (hi : i.val = (l.val + k) % 16)
    (hj : m.val = (l.val + j) % 16) (hkj : k ≤ j) (hj16 : j < 16) (hn : k + n = 16) :
    ∃ r, scan p l n i = some r := by
  induction n generalizing i k with
  | zero => omega
  | succ n ih =>
    rw [scan]
    by_cases hf : (p.mbufs i).len = 0
    · exact ⟨i, if_pos hf⟩
    · have hkne : k ≠ j := by
        rintro rfl
        exact hf ((Fin.ext (hj.trans hi.symm) : m = i) ▸ hm)
      have hsucc : (i + 1).val = (i.val + 1) % 16 := Fin.val_add i 1
      have hl : l ≠ i + 1 := by
        intro he
        have := congrArg Fin.val he
        omega
      rw [if_neg hf, if_neg hl]
      exact ih (k := k + 1) (by omega) (by omega) (by omega)

/-- The scan passes every mbuf before it gives up. -/
theorem scan_total {m : Slot} (hm : p.Free m) : ∃ r, scan p p.i maxmbufs p.i = some r := by
  have hi : p.i.val < 16 := p.i.isLt
  have hm' : m.val < 16 := m.isLt
  exact scan_from (k := 0) (j := (m.val + 16 - p.i.val) % 16) hm (by omega) (by omega) (by omega)
    (by omega) rfl

theorem mbuf_some (h : mbuf p buf = some (m, p')) :
    p.Free m ∧ buf.length ≤ maxmsglen ∧
      p' = { p with i := m }.upd m fun m =>
        { len := buf.length, buf := store m.buf 0 buf, next := none } := by
  unfold mbuf at h
  split at h
  · cases h
  · split at h
    · cases h
    · next hs =>
      obtain ⟨rfl, rfl⟩ := Prod.mk.inj (Option.some.inj h)
      exact ⟨scan_free hs, by omega, rfl⟩

/-- `mbuf` panics only when the message is too large or no mbuf is free. -/
theorem mbuf_total {m : Slot} (hm : p.Free m) (hl : buf.length ≤ maxmsglen) :
    ∃ r, mbuf p buf = some r := by
  obtain ⟨i, hi⟩ := scan_total hm
  rw [mbuf, if_neg (by omega), hi]
  exact ⟨_, rfl⟩

end Scan

section Walk
variable {p : Pool}

theorem chain_length (h : Chain (fun m => (p.mbufs m).next) r l) : l.length ≤ maxmbufs := by
  have := h.nodup.length_le_card
  rwa [Fintype.card_fin] at this

theorem lastBody_run (h : Chain (fun m => (p.mbufs m).next) (some r) (l ++ [m]))
    (hf : l.length < fuel) : run (lastBody p) fuel r = some m := by
  induction l generalizing r fuel with
  | nil =>
    obtain ⟨fuel, rfl⟩ := Nat.exists_eq_succ_of_ne_zero (Nat.ne_zero_of_lt hf)
    cases h with
    | cons h =>
      have hnext : (p.mbufs m).next = none := h.nil_iff.mpr rfl
      exact run_leave (by rw [lastBody, hnext]) fuel
  | cons a l ih =>
    obtain ⟨fuel, rfl⟩ := Nat.exists_eq_succ_of_ne_zero (Nat.ne_zero_of_lt hf)
    cases h with
    | cons h =>
      obtain ⟨n, hn⟩ : ∃ n, (p.mbufs a).next = some n := by
        rw [h.head]
        cases l <;> exact ⟨_, rfl⟩
      rw [hn] at h
      rw [run_pass (by rw [lastBody, hn])]
      exact ih h (by simpa using hf)

/-- An mbuf without a successor goes to the end of the queue. -/
theorem mbufq_spec (h : Chain (fun m => (p.mbufs m).next) r l) (hel : el ∉ l)
    (hn : (p.mbufs el).next = none) :
    ∃ p', mbufq p r el = some ((l ++ [el]).head?, p') ∧
      Chain (fun m => (p'.mbufs m).next) (l ++ [el]).head? (l ++ [el]) ∧
      (∀ m, (p'.mbufs m).len = (p.mbufs m).len ∧ (p'.mbufs m).buf = (p.mbufs m).buf) ∧
      ∀ m, m ∉ l → (p'.mbufs m).next = (p.mbufs m).next := by
  rcases List.eq_nil_or_concat l with rfl | ⟨l, last, rfl⟩
  · obtain rfl := h.nil_iff.mpr rfl
    refine ⟨p, rfl, .cons ?_, fun _ => ⟨rfl, rfl⟩, fun _ _ => rfl⟩
    rw [hn]
    exact .nil
  · rw [List.concat_eq_append] at h hel ⊢
    obtain ⟨r, rfl⟩ : ∃ n, r = some n := by
      rw [h.head]
      cases l <;> exact ⟨_, rfl⟩
    have hlen := chain_length h
    have hlast : run (lastBody p) (maxmbufs + 1) r = some last :=
      lastBody_run h (by simp at hlen; omega)
    have hhead : (l ++ [last] ++ [el]).head? = some r := by
      rw [h.head]
      cases l <;> rfl
    have hnext : (fun m => ((p.upd last fun m => { m with next := some el }).mbufs m).next) =
        Function.update (fun m => (p.mbufs m).next) last (some el) := by
      funext m
      by_cases hm : m = last <;> simp [Pool.upd, hm]
    refine ⟨p.upd last fun m => { m with next := some el }, ?_, ?_, fun m => ?_, fun m hm => ?_⟩
    · rw [mbufq, hlast, hhead]
      rfl
    · rw [hhead, hnext]
      exact h.append hn hel
    · by_cases hml : m = last <;> simp [Pool.upd, hml]
    · have hml : m ≠ last := fun he => hm (by simp [he])
      simp [Pool.upd, hml]

end Walk

/-- The queues whose heads are `head`, indexed by `κ`, hold the mbufs `q`. No
mbuf is in two queues, and no queued mbuf is free. -/
structure Queues {κ : Type} (p : Pool) (head : κ → Option Slot) (q : κ → List Slot) : Prop where
  chain : ∀ k, Chain (fun m => (p.mbufs m).next) (head k) (q k)
  apart : ∀ k k', k ≠ k' → ∀ m ∈ q k, m ∉ q k'
  used : ∀ k, ∀ m ∈ q k, ¬ p.Free m

/-- The pool after queuing `buf` in the mbuf `m`. -/
structure Enqueued (p p' : Pool) (buf : List UInt8) (m : Slot) : Prop where
  free : p.Free m
  len : (p'.mbufs m).len = buf.length
  text : p'.text m = buf
  others : ∀ x, x ≠ m → (p'.mbufs x).len = (p.mbufs x).len ∧ p'.text x = p.text x

section Queues
variable {κ : Type} {p : Pool} {head : κ → Option Slot} {q : κ → List Slot}

/-- Popping from an empty queue does nothing. -/
theorem Queues.mbufp_nil (h : Queues p head q) (hk : q k = []) (plen : Nat) :
    mbufp p (head k) plen = ⟨0, [], none, p⟩ := by
  have hhead : head k = none := (h.chain k).nil_iff.mpr hk
  rw [hhead, mbufp]

variable [DecidableEq κ]

/-- Queuing a message: queue `k` grows at its end, and no other queue changes. -/
theorem Queues.mbufq (h : Queues p head q) (hm : mbuf p buf = some (m, p₁)) (k : κ) :
    ∃ r p₂, Ws.mbufq p₁ (head k) m = some (r, p₂) ∧ Enqueued p p₂ buf m ∧ (∀ k', m ∉ q k') ∧
      r = (q k ++ [m]).head? ∧ ∀ k', Chain (fun m => (p₂.mbufs m).next)
        (Function.update head k r k') (Function.update q k (q k ++ [m]) k') := by
  obtain ⟨hfree, -, rfl⟩ := mbuf_some hm
  have hnew : ∀ k', m ∉ q k' := fun k' hmem => h.used k' m hmem hfree
  have hold : ∀ x, x ≠ m → ({ p with i := m }.upd m fun m =>
      { len := buf.length, buf := store m.buf 0 buf, next := none }).mbufs x = p.mbufs x := by
    intro x hx
    simp [Pool.upd, hx]
  have hchain : ∀ k', Chain (fun x => (({ p with i := m }.upd m fun m =>
      { len := buf.length, buf := store m.buf 0 buf, next := none }).mbufs x).next)
      (head k') (q k') :=
    fun k' => (h.chain k').congr fun x hx => by rw [hold x fun he => hnew k' (he ▸ hx)]
  obtain ⟨p₂, hq, hc, hkeep, hnext⟩ := mbufq_spec (hchain k) (hnew k) (by simp [Pool.upd])
  refine ⟨_, p₂, hq, ⟨hfree, ?_, ?_, fun x hx => ?_⟩, hnew, rfl, fun k' => ?_⟩
  · rw [(hkeep m).1]
    simp [Pool.upd]
  · rw [Pool.text, (hkeep m).1, (hkeep m).2]
    simp [Pool.upd, load_store]
  · rw [Pool.text, (hkeep x).1, (hkeep x).2, hold x hx]
    exact ⟨rfl, rfl⟩
  · by_cases hk : k' = k
    · subst hk
      rwa [Function.update_self, Function.update_self]
    · rw [Function.update_of_ne hk, Function.update_of_ne hk]
      exact (hchain k').congr fun x hx => hnext x fun hx' => h.apart k' k hk x hx hx'

/-- Changing queue `k` to mbufs of its own or of no queue. -/
theorem Queues.update (h : Queues p head q) (hk : Chain (fun m => (p'.mbufs m).next) r l)
    (hrest : ∀ k', k' ≠ k → Chain (fun m => (p'.mbufs m).next) (head k') (q k'))
    (hl : ∀ x ∈ l, x ∈ q k ∨ ∀ k', x ∉ q k') (hused : ∀ x ∈ l, ¬ p'.Free x)
    (hused' : ∀ k', k' ≠ k → ∀ x ∈ q k', ¬ p'.Free x) :
    Queues p' (Function.update head k r) (Function.update q k l) := by
  have hapart : ∀ k', k' ≠ k → ∀ x ∈ l, x ∉ q k' := by
    intro k' hk' x hx
    rcases hl x hx with hx | hnew
    · exact h.apart k k' hk'.symm x hx
    · exact hnew k'
  refine ⟨fun k' => ?_, fun k₁ k₂ hne x hx hx' => ?_, fun k' x hx => ?_⟩
  · by_cases hk' : k' = k
    · subst hk'
      rwa [Function.update_self, Function.update_self]
    · rw [Function.update_of_ne hk', Function.update_of_ne hk']
      exact hrest k' hk'
  · by_cases h₁ : k₁ = k
    · subst h₁
      rw [Function.update_self] at hx
      rw [Function.update_of_ne hne.symm] at hx'
      exact hapart k₂ hne.symm x hx hx'
    · rw [Function.update_of_ne h₁] at hx
      by_cases h₂ : k₂ = k
      · subst h₂
        rw [Function.update_self] at hx'
        exact hapart k₁ h₁ x hx' hx
      · rw [Function.update_of_ne h₂] at hx'
        exact h.apart k₁ k₂ hne x hx hx'
  · by_cases hk' : k' = k
    · subst hk'
      rw [Function.update_self] at hx
      exact hused x hx
    · rw [Function.update_of_ne hk'] at hx
      exact hused' k' hk' x hx

theorem Queues.enqueue (h : Queues p head q) (hbuf : buf ≠ []) (hm : mbuf p buf = some (m, p₁))
    (k : κ) : ∃ r p₂, Ws.mbufq p₁ (head k) m = some (r, p₂) ∧ Enqueued p p₂ buf m ∧
      (∀ k', m ∉ q k') ∧
      Queues p₂ (Function.update head k r) (Function.update q k (q k ++ [m])) := by
  obtain ⟨r, p₂, hq, henq, hnew, -, hchain⟩ := h.mbufq hm k
  have hlen : ¬ p₂.Free m := by
    rw [Pool.Free, henq.len]
    exact fun he => hbuf (List.eq_nil_of_length_eq_zero he)
  have hkeep : ∀ k' x, x ∈ q k' → ¬ p₂.Free x := by
    intro k' x hx hf
    have hxm : x ≠ m := fun he => hnew k' (he ▸ hx)
    rw [Pool.Free, (henq.others x hxm).1] at hf
    exact h.used k' x hx hf
  refine ⟨r, p₂, hq, henq, hnew, h.update ?_ (fun k' hk' => ?_) (fun x hx => ?_)
    (fun x hx => ?_) fun k' _ => hkeep k'⟩
  · have := hchain k
    rwa [Function.update_self, Function.update_self] at this
  · have := hchain k'
    rwa [Function.update_of_ne hk', Function.update_of_ne hk'] at this
  all_goals rcases List.mem_append.mp hx with hx | hx
  · exact Or.inl hx
  · exact Or.inr (List.mem_singleton.mp hx ▸ hnew)
  · exact hkeep k x hx
  · exact List.mem_singleton.mp hx ▸ hlen

/-- Popping the first message of queue `k`. -/
theorem Queues.dequeue (h : Queues p head q) (hk : q k = m :: t) (hl : (p.mbufs m).len ≤ plen) :
    ∃ r, mbufp p (head k) plen =
        ⟨(p.mbufs m).len, p.text m, r, p.upd m fun m => { m with len := 0 }⟩ ∧
      Queues (p.upd m fun m => { m with len := 0 }) (Function.update head k r)
        (Function.update q k t) := by
  have hc := h.chain k
  rw [hk] at hc
  have hhead : head k = some m := hc.head
  refine ⟨(p.mbufs m).next, ?_, ?_⟩
  · rw [hhead, mbufp, if_neg (by omega)]
    rfl
  have hnext : (fun x => ((p.upd m fun m => { m with len := 0 }).mbufs x).next) =
      fun x => (p.mbufs x).next := by
    funext x
    by_cases hx : x = m <;> simp [Pool.upd, hx]
  have hkeep : ∀ k' x, x ∈ q k' → x ≠ m → ¬ (p.upd m fun m => { m with len := 0 }).Free x := by
    intro k' x hx hxm
    simpa [Pool.Free, Pool.upd, hxm] using h.used k' x hx
  rw [hhead] at hc
  refine h.update ?_ (fun k' _ => ?_) (fun x hx => ?_) (fun x hx => ?_) fun k' hk' x hx => ?_
  · rw [hnext]
    cases hc with
    | cons hc => exact hc
  · rw [hnext]
    exact h.chain k'
  · exact Or.inl (hk ▸ List.mem_cons_of_mem m hx)
  · refine hkeep k x (hk ▸ List.mem_cons_of_mem m hx) ?_
    rintro rfl
    exact (List.nodup_cons.mp hc.nodup).1 hx
  · refine hkeep k' x hx ?_
    rintro rfl
    exact h.apart k' k hk' x hx (hk ▸ List.mem_cons_self)

/-- Forgetting a queue without popping it. -/
theorem Queues.forget (h : Queues p head q) (k : κ) :
    Queues p (Function.update head k none) (Function.update q k []) :=
  h.update .nil (fun k' _ => h.chain k') (by simp) (by simp) fun k' _ => h.used k'

theorem flushBody_run (h : Queues p head q) (hl : ∀ m ∈ q k, (p.mbufs m).len ≤ 1024)
    (hf : (q k).length < fuel) :
    ∃ p', run flushBody fuel (head k, p) = some (none, p') ∧
      Queues p' (Function.update head k none) (Function.update q k []) ∧
      (∀ m ∈ q k, p'.Free m) ∧ ∀ m, m ∉ q k → p'.mbufs m = p.mbufs m := by
  induction hn : (q k).length generalizing p head q fuel with
  | zero =>
    obtain ⟨fuel, rfl⟩ := Nat.exists_eq_succ_of_ne_zero (Nat.ne_zero_of_lt hf)
    have hk := List.eq_nil_of_length_eq_zero hn
    have hhead : head k = none := (h.chain k).nil_iff.mpr hk
    refine ⟨p, ?_, ?_, by simp [hk], fun _ _ => rfl⟩
    · rw [run_leave (by rw [flushBody, h.mbufp_nil hk]; rfl)]
    · rwa [← hhead, ← hk, Function.update_eq_self, Function.update_eq_self]
  | succ n ih =>
    obtain ⟨fuel, rfl⟩ := Nat.exists_eq_succ_of_ne_zero (Nat.ne_zero_of_lt hf)
    obtain ⟨m, t, hk⟩ := List.exists_cons_of_length_eq_add_one hn
    have hm : m ∈ q k := hk ▸ List.mem_cons_self
    obtain ⟨r, hpop, hq⟩ := h.dequeue hk (hl m hm)
    have hne : ((p.mbufs m).len : Int) ≠ 0 := fun he => h.used k m hm (Int.ofNat_eq_zero.mp he)
    have hpass : flushBody (head k, p) = some (.inl (r, p.upd m fun m => { m with len := 0 })) := by
      rw [flushBody, hpop]
      exact if_pos hne
    have hmt : m ∉ t := by
      have := (h.chain k).nodup
      rw [hk] at this
      exact (List.nodup_cons.mp this).1
    have hother : ∀ x, x ≠ m → (p.upd m fun m => { m with len := 0 }).mbufs x = p.mbufs x := by
      intro x hx
      simp [Pool.upd, hx]
    have hlen : t.length = n := by simpa [hk] using hn
    have hfuel : (Function.update q k t k).length < fuel := by
      rw [Function.update_self]
      omega
    obtain ⟨p', hrun, hq', hfree, hkeep⟩ := ih hq
      (by
        rw [Function.update_self]
        intro x hx
        rw [hother x fun he => hmt (he ▸ hx)]
        exact hl x (hk ▸ List.mem_cons_of_mem _ hx))
      hfuel (by rw [Function.update_self]; exact hlen)
    rw [Function.update_self] at hrun hfree hkeep
    rw [Function.update_idem, Function.update_idem] at hq'
    refine ⟨p', by rw [run_pass hpass, hrun], hq', fun x hx => ?_, fun x hx => ?_⟩
    · rw [hk] at hx
      rcases List.mem_cons.mp hx with rfl | hx
      · rw [Pool.Free, hkeep x hmt]
        simp [Pool.upd]
      · exact hfree x hx
    · rw [hk, List.mem_cons, not_or] at hx
      rw [hkeep x hx.2, hother x hx.1]

/-- Emptying queue `k` frees its mbufs and leaves the others alone. -/
theorem Queues.flush (h : Queues p head q) (k : κ) (hl : ∀ m ∈ q k, (p.mbufs m).len ≤ 1024) :
    ∃ p', Ws.flush p (head k) = some (none, p') ∧
      Queues p' (Function.update head k none) (Function.update q k []) ∧
      (∀ m ∈ q k, p'.Free m) ∧ ∀ m, m ∉ q k → p'.mbufs m = p.mbufs m :=
  flushBody_run h hl (Nat.lt_succ_of_le (chain_length (h.chain k)))

end Queues

end Oin17.Ws
