import Mathlib.Data.Finset.Prod
import Mathlib.Order.Interval.Finset.Nat
import Oin17.Chals.Shortpath.Correct
import Oin17.Lib.Log

namespace Oin17.Chals
open Cint Loop Log Memory Utils

/-- What is logged of the main loop of `search`: the cells popped, as they are then, the
costs of the cell popped last and of its neighbour where the loop looks at both, and the
cells queued. -/
inductive Note where
  | pop (i : Nat) (cl : Cell)
  | test (cur nei : Int)
  | add (i : Nat)

def Note.popped : Note → Option (Nat × Cell)
  | .pop i cl => some (i, cl)
  | _ => none

def Note.added : Note → Option Nat
  | .add i => some i
  | _ => none

def pops (ev : List Note) : List (Nat × Cell) := ev.filterMap Note.popped

def adds (ev : List Note) : List Nat := ev.filterMap Note.added

def popNoted (sp : Shortpath) : Logged Note (Option Nat × Shortpath) := do
  tell ((qpop sp).1.toList.map fun i => .pop i (sp.cells i))
  pure (qpop sp)

def addNoted (fuel : Nat) (sp : Shortpath) (cl : Nat) : Logged Note Shortpath := do
  tell [.add cl]
  lift (qadd fuel sp cl)

def relaxNoted (fuel : Nat) (cur : Nat) (sp : Shortpath) (dir : Nat) : Logged Note Shortpath := do
  match ← lift (getneigh sp (sp.cells cur) dir) with
  | none => pure sp
  | some nei => do
    tell [.test (sp.cells cur).c (sp.cells nei).c]
    if 0 > (sp.cells nei).c ∨ (sp.cells cur).c + 1 < (sp.cells nei).c then
      let sp := sp.upd nei fun c => { c with c := (sp.cells cur).c + 1 }
      let sp ← lift (qdel fuel sp nei)
      let sp ← addNoted fuel sp nei
      pure (sp.upd nei fun c => { c with p := some cur })
    else pure sp

def searchBodyNoted (fuel : Nat) (sp : Shortpath) :
    Logged Note (Shortpath ⊕ (Option Nat × Shortpath)) := do
  match ← popNoted sp with
  | (none, sp) => pure (.inr (none, sp))
  | (some cur, sp) =>
    if cur = sp.dst then pure (.inr (some cur, sp))
    else do
      let sp ← (List.range ndirs).foldlM (relaxNoted fuel cur) sp
      pure (.inl sp)

/-- `search` to the end of its main loop. -/
def mainNoted (fuel : Nat) (sp : Shortpath) : Logged Note (Option Nat × Shortpath) := do
  let sp := searchInit sp
  let sp := sp.upd sp.src fun c => { c with c := 0 }
  let sp ← addNoted fuel sp sp.src
  loop (searchBodyNoted fuel) fuel sp

/-- What `search` does after its main loop. -/
def emit (fuel : Nat) (r : Option Nat × Shortpath) : Option (Int × Shortpath) := do
  let (cur, sp) := r
  if cur ≠ some sp.dst then pure (0, sp)
  else
    let sp ← run drainBody fuel sp
    let (cur, i, sp) ← run (reverseBody fuel) fuel (sp.dst, 2 ^ 64 - 1, sp)
    let sp ← qadd fuel (sp.upd cur fun c => { c with c := toInt i }) cur
    let (i, sp) ← run writeBody fuel (0, sp)
    pure (toInt i, { sp with sol := Function.update sp.sol i 0 })

section Erase

@[simp] theorem erase_popNoted (sp : Shortpath) : erase (popNoted sp) = some (qpop sp) := by
  simp [popNoted]

@[simp] theorem erase_addNoted (fuel : Nat) (sp : Shortpath) (cl : Nat) :
    erase (addNoted fuel sp cl) = qadd fuel sp cl := by
  simp [addNoted]

@[simp] theorem erase_relaxNoted (fuel cur : Nat) (sp : Shortpath) (dir : Nat) :
    erase (relaxNoted fuel cur sp dir) = relax fuel cur sp dir := by
  rw [relaxNoted, relax, erase_bind, erase_lift, Option.bind_eq_bind]
  congr 1
  funext nei
  cases nei with
  | none => rfl
  | some nei =>
    dsimp only
    rw [erase_bind, erase_tell, Option.bind_some]
    split
    · simp
    · rfl

theorem erase_searchBodyNoted (fuel : Nat) (sp : Shortpath) :
    erase (searchBodyNoted fuel sp) = searchBody fuel sp := by
  rw [searchBodyNoted, searchBody, erase_bind, erase_popNoted, Option.bind_some]
  rcases qpop sp with ⟨_ | cur, sp⟩
  · rfl
  · dsimp only
    split
    · rfl
    · rw [erase_bind, erase_foldlM]
      simp only [erase_relaxNoted]
      cases (List.range ndirs).foldlM (relax fuel cur) sp <;> rfl

/-- The search is its main loop, with or without the log, and what comes after it. -/
theorem search_eq_emit (fuel : Nat) (sp : Shortpath) :
    search fuel sp = (erase (mainNoted fuel sp)).bind (emit fuel) := by
  unfold search mainNoted
  simp only [erase_bind, erase_addNoted, erase_loop (erase_searchBodyNoted fuel), Option.bind_assoc,
    Option.bind_eq_bind]
  rfl

end Erase

/-- Strictly before in the order of the queue: by cost, then by row, then by column. -/
def Sooner (a b : Cell) : Prop :=
  a.c < b.c ∨ a.c = b.c ∧ (a.y < b.y ∨ a.y = b.y ∧ a.x < b.x)

/-- A popped cell, with its coordinates and its distance from `src`. -/
def Settled (sp₀ : Shortpath) (p : Nat × Cell) : Prop :=
  p.2.c = (graph sp₀).dist sp₀.src p.1 ∧ p.2.y = row sp₀.size p.1 ∧ p.2.x = col sp₀.size p.1

/-- What has been logged when the search has come to `s`. -/
structure Ordered (sp₀ : Shortpath) (s : Bfs.Frontier Nat) (ev : List Note) : Prop where
  popped : ∀ p ∈ pops ev, s.Popped p.1 ∧ Settled sp₀ p
  sorted : (pops ev).Pairwise fun a b => Sooner a.2 b.2
  added : ∀ i, i ∈ adds ev ↔ (s.cost i).isSome
  once : (adds ev).Nodup
  tests : ∀ c c', .test c c' ∈ ev → 0 ≤ c' → ¬ c + 1 < c'

section Order
variable {sp₀ sp : Shortpath} {s : Bfs.Frontier Nat} {ev ev' : List Note}

@[simp] theorem pops_append (ev ev' : List Note) : pops (ev ++ ev') = pops ev ++ pops ev' :=
  List.filterMap_append

@[simp] theorem adds_append (ev ev' : List Note) : adds (ev ++ ev') = adds ev ++ adds ev' :=
  List.filterMap_append

@[simp] theorem pops_pop (i : Nat) (cl : Cell) (ev : List Note) :
    pops (.pop i cl :: ev) = (i, cl) :: pops ev := rfl
@[simp] theorem pops_test (c c' : Int) (ev : List Note) : pops (.test c c' :: ev) = pops ev := rfl
@[simp] theorem pops_add (i : Nat) (ev : List Note) : pops (.add i :: ev) = pops ev := rfl
@[simp] theorem pops_nil : pops [] = [] := rfl
@[simp] theorem adds_pop (i : Nat) (cl : Cell) (ev : List Note) :
    adds (.pop i cl :: ev) = adds ev := rfl
@[simp] theorem adds_test (c c' : Int) (ev : List Note) : adds (.test c c' :: ev) = adds ev := rfl
@[simp] theorem adds_add (i : Nat) (ev : List Note) : adds (.add i :: ev) = i :: adds ev := rfl
@[simp] theorem adds_nil : adds [] = [] := rfl

/-- The order of the search is that of the cells. -/
theorem sooner_of_le (hs : 0 < sp₀.size) (hinv : Bfs.Inv (graph sp₀) sp₀.src pend s)
    (ha : (s.cost a.1).isSome) (hb : (s.cost b.1).isSome) (hsa : Settled sp₀ a)
    (hsb : Settled sp₀ b) (hle : Bfs.Le s.cost a.1 b.1) (hne : a.1 ≠ b.1) : Sooner a.2 b.2 := by
  obtain ⟨hca, hya, hxa⟩ := hsa
  obtain ⟨hcb, hyb, hxb⟩ := hsb
  have hlex := lexLe_iff hs a.1 b.1
  have hdiff : ¬ (row sp₀.size a.1 = row sp₀.size b.1 ∧ col sp₀.size a.1 = col sp₀.size b.1) :=
    fun h => hne (cell_ext _ h.1 h.2)
  unfold Bfs.Le at hle
  unfold LexLe at hlex
  rw [hinv.rank_eq ha, hinv.rank_eq hb, ← hlex] at hle
  unfold Sooner
  rw [hca, hcb, hya, hyb, hxa, hxb]
  omega

theorem Ordered.start (sp₀ : Shortpath) : Ordered sp₀ (Bfs.start sp₀.src) [.add sp₀.src] := by
  refine ⟨by simp, by simp, fun i => ?_, by simp, by simp⟩
  by_cases hi : i = sp₀.src
  · simp [hi, Bfs.start]
  · simp [hi, Bfs.start]

/-- The cell at the head of the queue comes after all that were popped. -/
theorem Ordered.pop (ho : Ordered sp₀ ⟨cur :: q, cost, par⟩ ev) (hs : 0 < sp₀.size)
    (hinv : Bfs.Inv (graph sp₀) sp₀.src (fun _ _ => False) ⟨cur :: q, cost, par⟩)
    (hcl : Settled sp₀ (cur, cl)) : Ordered sp₀ ⟨q, cost, par⟩ (ev ++ [.pop cur cl]) := by
  have hvisit := hinv.pop
  have hold : ∀ p ∈ pops ev, p.1 ≠ cur := by
    rintro p hp rfl
    exact (ho.popped p hp).1.2 List.mem_cons_self
  refine ⟨fun p hp => ?_, ?_, fun i => ?_, ?_, fun c c' hm => ?_⟩
  · rw [pops_append, List.mem_append] at hp
    rcases hp with hp | hp
    · obtain ⟨⟨hd, hq⟩, hset⟩ := ho.popped p hp
      exact ⟨⟨hd, fun hm => hq (List.mem_cons_of_mem _ hm)⟩, hset⟩
    · obtain rfl := List.mem_singleton.mp hp
      exact ⟨hvisit.popped, hcl⟩
  · rw [pops_append]
    refine List.pairwise_append.mpr ⟨ho.sorted, List.pairwise_singleton _ _, fun p hp b hb => ?_⟩
    obtain rfl := List.mem_singleton.mp hb
    obtain ⟨hpop, hset⟩ := ho.popped p hp
    have hle := hinv.behind p.1 cur hpop List.mem_cons_self
    exact sooner_of_le hs hinv hpop.1 hvisit.popped.1 hset hcl hle (hold p hp)
  · rw [adds_append]
    simpa using ho.added i
  · rw [adds_append]
    simpa using ho.once
  · rw [List.mem_append, List.mem_singleton] at hm
    exact ho.tests c c' (hm.resolve_right fun h => by cases h)

theorem Ordered.test (ho : Ordered sp₀ s ev) (h : 0 ≤ c' → ¬ c + 1 < c') :
    Ordered sp₀ s (ev ++ [.test c c']) := by
  refine ⟨?_, ?_, fun i => ?_, ?_, fun d d' hm => ?_⟩
  · simpa using ho.popped
  · simpa using ho.sorted
  · simpa using ho.added i
  · simpa using ho.once
  · rcases List.mem_append.mp hm with hm | hm
    · exact ho.tests d d' hm
    · cases List.mem_singleton.mp hm
      exact h

/-- A cell is queued only when it is discovered. -/
theorem Ordered.add (ho : Ordered sp₀ s ev) (hn : s.cost n = none) :
    Ordered sp₀ (Bfs.discover s u n) (ev ++ [.add n]) := by
  have hnew : n ∉ adds ev := by
    intro hm
    have := (ho.added n).mp hm
    rw [hn] at this
    cases this
  refine ⟨fun p hp => ?_, ?_, fun i => ?_, ?_, fun c c' hm => ?_⟩
  · rw [pops_append, pops_add, pops_nil, List.append_nil] at hp
    rw [Bfs.discover_popped hn]
    exact ho.popped p hp
  · simpa using ho.sorted
  · rw [adds_append, List.mem_append, ho.added, Bfs.discover_cost]
    by_cases hi : i = n
    · simp [hi]
    · simp [hi]
  · rw [adds_append]
    refine List.nodup_append.mpr ⟨ho.once, List.nodup_singleton n, fun i hi j hj => ?_⟩
    obtain rfl := List.mem_singleton.mp hj
    exact fun he => hnew (he ▸ hi)
  · rw [List.mem_append, List.mem_singleton] at hm
    exact ho.tests c c' (hm.resolve_right fun h => by cases h)

end Order

section Run
variable {sp₀ sp : Shortpath} {s : Bfs.Frontier Nat} {ev ev' : List Note}

theorem addNoted_eq_some : addNoted fuel sp cl = some (sp', ev) ↔
    qadd fuel sp cl = some sp' ∧ ev = [.add cl] := by
  constructor
  · intro h
    obtain ⟨⟨⟩, l₁, l₂, htell, hadd, rfl⟩ := bind_eq_some.mp h
    cases htell
    obtain ⟨hq, rfl⟩ := lift_eq_some.mp hadd
    exact ⟨hq, rfl⟩
  · rintro ⟨hq, rfl⟩
    exact bind_eq_some.mpr ⟨(), [.add cl], [], rfl, lift_eq_some.mpr ⟨hq, rfl⟩, rfl⟩

/-- What a direction logs. -/
theorem relaxNoted_log (h : relaxNoted fuel u sp dir = some (sp', ev)) :
    getneigh sp (sp.cells u) dir = some none ∧ ev = [] ∨
      ∃ n, getneigh sp (sp.cells u) dir = some (some n) ∧
        ev = .test (sp.cells u).c (sp.cells n).c ::
          if 0 > (sp.cells n).c ∨ (sp.cells u).c + 1 < (sp.cells n).c then [.add n] else [] := by
  obtain ⟨nei, l₁, l₂, hlift, hrest, rfl⟩ := bind_eq_some.mp h
  obtain ⟨hnei, rfl⟩ := lift_eq_some.mp hlift
  cases nei with
  | none =>
    obtain ⟨-, rfl⟩ := pure_eq_some.mp hrest
    exact Or.inl ⟨hnei, rfl⟩
  | some n =>
    obtain ⟨⟨⟩, l₃, l₄, htell, htest, rfl⟩ := bind_eq_some.mp hrest
    cases htell
    refine Or.inr ⟨n, hnei, congrArg (List.cons _) ?_⟩
    by_cases hcond : 0 > (sp.cells n).c ∨ (sp.cells u).c + 1 < (sp.cells n).c
    · rw [if_pos hcond] at htest ⊢
      obtain ⟨sp₁, l₅, l₆, hdel, hq, rfl⟩ := bind_eq_some.mp htest
      obtain ⟨sp₂, l₇, l₈, hadd, hend, rfl⟩ := bind_eq_some.mp hq
      obtain ⟨-, rfl⟩ := lift_eq_some.mp hdel
      obtain ⟨-, rfl⟩ := addNoted_eq_some.mp hadd
      obtain ⟨-, rfl⟩ := pure_eq_some.mp hend
      rfl
    · rw [if_neg hcond] at htest ⊢
      obtain ⟨-, rfl⟩ := pure_eq_some.mp htest
      rfl

/-- One direction: a neighbour that is queued had not been reached before. -/
theorem relaxNoted_ordered (hg : Walled sp₀) (h : Refines sp₀ sp s)
    (hv : Bfs.Visiting (graph sp₀) sp₀.src u pend s) (hu : Open sp₀ u) (hdir : dir < ndirs)
    (hf : sp₀.size * sp₀.size < fuel) (ho : Ordered sp₀ s ev)
    (hrun : relaxNoted fuel u sp dir = some (sp', ev')) : ∃ s', Refines sp₀ sp' s' ∧
      Bfs.Visiting (graph sp₀) sp₀.src u (fun w => pend w ∧ w ≠ step sp₀.size u dir) s' ∧
      Ordered sp₀ s' (ev ++ ev') := by
  have hrelax : relax fuel u sp dir = some sp' := by
    rw [← erase_relaxNoted]
    exact erase_eq_some.mpr ⟨ev', hrun⟩
  rw [relax] at hrelax
  rcases relax_cases hg h hv hu hdir with ⟨hno, hadj⟩ | ⟨hsome, hnew | hold⟩
  · obtain ⟨-, rfl⟩ | ⟨n, hn, -⟩ := relaxNoted_log hrun
    · rw [hno] at hrelax
      obtain rfl := Option.some.inj hrelax
      rw [List.append_nil]
      exact ⟨s, h, hv.blocked hadj, ho⟩
    · cases hn.symm.trans hno
  · obtain ⟨hadj, hc, hneg⟩ := hnew
    obtain ⟨hn, -⟩ | ⟨n, hn, rfl⟩ := relaxNoted_log hrun
    · cases hn.symm.trans hsome
    · obtain rfl := Option.some.inj (Option.some.inj (hn.symm.trans hsome))
      obtain ⟨sp₁, hdisc, href⟩ := h.discover hg hv hu.1 (hg.step_lt hu hdir) hc hf
      have hsame : sp₁ = sp' := by
        rw [hsome] at hrelax
        apply Option.some.inj (hdisc.symm.trans _)
        simpa [hneg] using hrelax
      subst hsame
      refine ⟨_, href, hv.discover hadj hc, ?_⟩
      rw [if_pos (Or.inl hneg)]
      have hlow : 0 ≤ (sp.cells (step sp₀.size u dir)).c →
          ¬ (sp.cells u).c + 1 < (sp.cells (step sp₀.size u dir)).c := by omega
      simpa using (ho.test hlow).add hc
  · obtain ⟨hc, hpos, hle⟩ := hold
    obtain ⟨hn, -⟩ | ⟨n, hn, rfl⟩ := relaxNoted_log hrun
    · cases hn.symm.trans hsome
    · obtain rfl := Option.some.inj (Option.some.inj (hn.symm.trans hsome))
      have hno : ¬ (0 > (sp.cells (step sp₀.size u dir)).c ∨
          (sp.cells u).c + 1 < (sp.cells (step sp₀.size u dir)).c) := by omega
      rw [hsome] at hrelax
      have hsame : sp = sp' := by simpa [hno] using hrelax
      subst hsame
      rw [if_neg hno]
      exact ⟨s, h, hv.skip hc, ho.test fun _ => hle⟩

/-- Between two passes. -/
def Underway (sp₀ : Shortpath) (ev : List Note) (sp : Shortpath) : Prop :=
  ∃ s, Refines sp₀ sp s ∧ Bfs.Inv (graph sp₀) sp₀.src (fun _ _ => False) s ∧ Ordered sp₀ s ev

/-- After the last pass. -/
def Over (sp₀ : Shortpath) (ev : List Note) : Prop :=
  ∃ s pend, Bfs.Inv (graph sp₀) sp₀.src pend s ∧ Ordered sp₀ s ev

theorem relaxNoted_all (hg : Walled sp₀) (hf : sp₀.size * sp₀.size < fuel) (hu : Open sp₀ u)
    (h : Refines sp₀ sp s) (hv : Bfs.Visiting (graph sp₀) sp₀.src u (fun _ => True) s)
    (ho : Ordered sp₀ s ev)
    (hrun : (List.range ndirs).foldlM (relaxNoted fuel u) sp = some (sp', ev')) :
    Underway sp₀ (ev ++ ev') sp' := by
  have hall := foldlM_inv (f := relaxNoted fuel u) (fun dirs ev sp => ∃ s pend,
    Refines sp₀ sp s ∧ Bfs.Visiting (graph sp₀) sp₀.src u pend s ∧ Ordered sp₀ s ev ∧
      (∀ dir ∈ dirs, dir < ndirs) ∧
      ∀ dir < ndirs, dir ∉ dirs → ¬ pend (step sp₀.size u dir)) ?_ (List.range ndirs)
    ⟨s, fun _ => True, h, hv, ho, fun _ => List.mem_range.mp, fun dir hdir hn => ?_⟩ hrun
  · obtain ⟨s', pend, href, hv', ho', -, hdone⟩ := hall
    refine ⟨s', href, hv'.finish fun v hadj => ?_, ho'⟩
    obtain ⟨-, dir, hdir, rfl⟩ := (hg.adj_iff hu v).mp hadj
    exact hdone dir hdir List.not_mem_nil
  · rintro dir dirs l sp t l' ⟨s, pend, href, hv, ho, hdirs, hdone⟩ ht
    rw [List.forall_mem_cons] at hdirs
    obtain ⟨s', href', hv', ho'⟩ := relaxNoted_ordered hg href hv hu hdirs.1 hf ho ht
    refine ⟨s', _, href', hv', ho', hdirs.2, fun d hd hn hp => ?_⟩
    by_cases he : d = dir
    · exact hp.2 (congrArg (step sp₀.size u) he)
    · exact hdone d hd (List.not_mem_cons_of_ne_of_not_mem he hn) hp.1
  · exact absurd (List.mem_range.mpr hdir) hn

/-- One pass. -/
theorem searchBodyNoted_ordered (hg : Walled sp₀) (hf : sp₀.size * sp₀.size < fuel)
    (h : Underway sp₀ ev sp) (hrun : searchBodyNoted fuel sp = some (o, ev')) :
    (∃ sp', o = .inl sp' ∧ Underway sp₀ (ev ++ ev') sp') ∨
      ∃ r, o = .inr r ∧ Over sp₀ (ev ++ ev') := by
  obtain ⟨⟨q, cost, par⟩, href, hinv, ho⟩ := h
  obtain ⟨r, l₁, l₂, hpop, hrest, rfl⟩ := bind_eq_some.mp hrun
  obtain ⟨⟨⟩, l₃, l₄, htell, hend, rfl⟩ := bind_eq_some.mp hpop
  cases htell
  obtain ⟨rfl, rfl⟩ := pure_eq_some.mp hend
  cases q with
  | nil =>
    rw [qpop_nil href.queue] at hrest ⊢
    obtain ⟨rfl, rfl⟩ := pure_eq_some.mp hrest
    refine Or.inr ⟨_, rfl, _, _, hinv, ?_⟩
    simpa using ho
  | cons cur q =>
    obtain ⟨sp₁, hqpop, hr, hq₁⟩ := qpop_cons href.queue
    have hvisit := hinv.pop
    have href₁ : Refines sp₀ sp₁ ⟨q, cost, par⟩ := href.popped hr hq₁
    have hcur := href.inside (i := cur) List.mem_cons_self
    have hsettled : Settled sp₀ (cur, sp.cells cur) := by
      obtain ⟨hx, hy, -⟩ := href.cells cur hcur
      obtain ⟨d, hd⟩ := Option.isSome_iff_exists.mp hvisit.popped.1
      have hdist := (hinv.found cur d hd).2
      refine ⟨?_, hy, hx⟩
      rw [href.cost cur hcur, hdist]
      exact congrArg costOf hd
    have ho₁ := ho.pop hg.size_pos hinv hsettled
    rw [hqpop] at hrest ⊢
    dsimp only at hrest
    by_cases hd : cur = sp₁.dst
    · rw [if_pos hd] at hrest
      obtain ⟨rfl, rfl⟩ := pure_eq_some.mp hrest
      refine Or.inr ⟨_, rfl, _, _, hvisit.toInv, ?_⟩
      simpa using ho₁
    · rw [if_neg hd] at hrest
      have hopen : Open sp₀ cur := reachable_open hg.src (hvisit.reachable hvisit.popped.1)
      obtain ⟨sp₂, l₅, l₆, hfold, hend, rfl⟩ := bind_eq_some.mp hrest
      obtain ⟨rfl, rfl⟩ := pure_eq_some.mp hend
      have hall := relaxNoted_all hg hf hopen href₁ hvisit ho₁ hfold
      refine Or.inl ⟨sp₂, rfl, ?_⟩
      simpa using hall

theorem mainNoted_ordered (hg : Walled sp₀) (hf : sp₀.size * sp₀.size < fuel)
    (hrun : mainNoted fuel sp₀ = some (r, ev)) : Over sp₀ ev := by
  obtain ⟨sp₁, hstart, href₁⟩ := search_start hg fuel (by omega)
  have hsrc : (searchInit sp₀).src = sp₀.src := by
    rw [(searchInit_spec hg.bound).2]
  obtain ⟨sp, l₁, l₂, hadd, hloop, rfl⟩ := bind_eq_some.mp hrun
  obtain ⟨hq, rfl⟩ := addNoted_eq_some.mp hadd
  obtain rfl := Option.some.inj (hq.symm.trans hstart)
  refine loop_inv (Underway sp₀) (fun ev _ => Over sp₀ ev) ?_ ?_ ?_ hloop
  · intro l sp t l' h hb
    obtain ⟨sp', he, hu⟩ | ⟨r, he, -⟩ := searchBodyNoted_ordered hg hf h hb
    · exact Sum.inl.inj he ▸ hu
    · cases he
  · intro l sp r l' h hb
    obtain ⟨sp', he, -⟩ | ⟨r, he, ho⟩ := searchBodyNoted_ordered hg hf h hb
    · cases he
    · exact ho
  · refine ⟨_, href₁, Bfs.start_inv _ _, ?_⟩
    change Ordered sp₀ _ [.add (searchInit sp₀).src]
    rw [hsrc]
    exact Ordered.start sp₀

theorem Over.once (h : Over sp₀ ev) : ((pops ev).map Prod.fst).Nodup := by
  obtain ⟨s, pend, -, ho⟩ := h
  refine List.pairwise_map.mpr (ho.sorted.imp_of_mem fun {a b} ha hb hab he => ?_)
  obtain ⟨-, hca, hya, hxa⟩ := ho.popped a ha
  obtain ⟨-, hcb, hyb, hxb⟩ := ho.popped b hb
  unfold Sooner at hab
  rw [hca, hcb, hya, hyb, hxa, hxb, he] at hab
  omega

/-- There are no more cells inside of the walls. -/
theorem open_card (hg : Walled sp₀) {l : List Nat} (hn : l.Nodup) (hl : ∀ i ∈ l, Open sp₀ i) :
    l.length ≤ (sp₀.size - 2) * (sp₀.size - 2) := by
  let inner := Finset.Ico 1 (sp₀.size - 1)
  have hcard : (inner ×ˢ inner).card = (sp₀.size - 2) * (sp₀.size - 2) := by
    rw [Finset.card_product, Nat.card_Ico]
    rfl
  have hin : ∀ i ∈ l.toFinset, (row sp₀.size i, col sp₀.size i) ∈ inner ×ˢ inner := by
    intro i hi
    obtain ⟨hr, hr', hc, hc'⟩ := hg.inside (hl i (List.mem_toFinset.mp hi))
    rw [Finset.mem_product, Finset.mem_Ico, Finset.mem_Ico]
    dsimp only
    omega
  have hle := Finset.card_le_card_of_injOn (fun i => (row sp₀.size i, col sp₀.size i)) hin
    fun i _ j _ he => cell_ext _ (Prod.mk.inj he).1 (Prod.mk.inj he).2
  rwa [List.toFinset_card_of_nodup hn, hcard] at hle

theorem Over.length_le (hg : Walled sp₀) (h : Over sp₀ ev) :
    (pops ev).length ≤ (sp₀.size - 2) * (sp₀.size - 2) := by
  have honce := h.once
  obtain ⟨s, pend, hinv, ho⟩ := h
  rw [← List.length_map Prod.fst]
  refine open_card hg honce fun i hi => ?_
  obtain ⟨p, hp, rfl⟩ := List.mem_map.mp hi
  exact reachable_open hg.src (hinv.reachable (ho.popped p hp).1.1)

/-- The costs are small: a shortest path has no more cells than there are. -/
theorem Over.cost_lt (hg : Walled sp₀) (h : Over sp₀ ev) (hp : p ∈ pops ev) :
    0 ≤ p.2.c ∧ p.2.c < ((sp₀.size - 2) * (sp₀.size - 2) : Nat) := by
  obtain ⟨s, pend, hinv, ho⟩ := h
  obtain ⟨hpop, hc, -⟩ := ho.popped p hp
  obtain ⟨l, -, hpath⟩ := hinv.trail hpop.1
  have hle := open_card hg hpath.nodup fun i hi => reachable_open hg.src (hpath.mem hi).1
  rw [hpath.short] at hle
  rw [hc]
  omega

end Run

/-- The main loop pops the cells by cost, row and column, each of them once. It queues none
of them twice, since a cell that was reached is never reached at a lower cost. The last bound
is what makes the costs an `int` as in the code, in grids of up to 46342 rows. -/
theorem search_pops (sp : Shortpath) (fuel : Nat) (hg : Walled sp)
    (hf : sp.size * sp.size < fuel) : ∃ r ev, mainNoted fuel sp = some (r, ev) ∧
      search fuel sp = emit fuel r ∧
      (pops ev).Pairwise (fun a b => Sooner a.2 b.2) ∧ ((pops ev).map Prod.fst).Nodup ∧
      (∀ c c', .test c c' ∈ ev → 0 ≤ c' → ¬ c + 1 < c') ∧ (adds ev).Nodup ∧
      (pops ev).length ≤ (sp.size - 2) * (sp.size - 2) ∧
      ∀ p ∈ pops ev, 0 ≤ p.2.c ∧ p.2.c < ((sp.size - 2) * (sp.size - 2) : Nat) := by
  obtain ⟨sp₁, hstart, href⟩ := search_start hg fuel (by omega)
  obtain ⟨r, hmain, -⟩ := searchBody_run hg href hf
  have herase : erase (mainNoted fuel sp) = some r := by
    unfold mainNoted
    simp only [erase_bind, erase_addNoted, erase_loop (erase_searchBodyNoted fuel)]
    rw [hstart]
    exact hmain
  obtain ⟨ev, hev⟩ := erase_eq_some.mp herase
  have hover := mainNoted_ordered hg hf hev
  have hemit : search fuel sp = emit fuel r := by
    rw [search_eq_emit, herase, Option.bind_some]
  refine ⟨r, ev, hev, hemit, ?_, hover.once, ?_, ?_, hover.length_le hg,
    fun p hp => hover.cost_lt hg hp⟩
  all_goals obtain ⟨s, pend, -, ho⟩ := hover
  · exact ho.sorted
  · exact ho.tests
  · exact ho.once

/-- The two cells of the smallest grid's diagonal and the two beside it. -/
theorem search_pops_small : ∃ r ev, mainNoted 17 smallGrid = some (r, ev) ∧
    (pops ev).Pairwise (fun a b => Sooner a.2 b.2) ∧ (adds ev).Nodup ∧ (pops ev).length ≤ 4 := by
  obtain ⟨r, ev, hev, -, hsorted, -, -, hadds, hlen, -⟩ :=
    search_pops smallGrid 17 smallGrid_popgrid.walled (by decide)
  exact ⟨r, ev, hev, hsorted, hadds, hlen⟩

end Oin17.Chals
