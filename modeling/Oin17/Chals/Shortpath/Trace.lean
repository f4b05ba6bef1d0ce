import Oin17.Chals.Shortpath.Popgrid
import Oin17.Chals.Shortpath.Correct
import Oin17.Lib.Log

namespace Oin17.Chals
open Cint Loop Log Memory Utils

/-- What is logged of `search`: the cells that `getneigh` looks at, and those that
are queued and popped. -/
inductive Act where
  | look (i : Nat)
  | qadd (i : Nat)
  | qpop (i : Nat)
  deriving DecidableEq

def getneighLog (sp : Shortpath) (cl : Cell) (dir : Nat) : Logged Act (Option Nat) :=
  let x := toSize cl.x
  let y := toSize cl.y
  let go (x y : Nat) : Logged Act (Option Nat) :=
    let i := indexofxy x y sp.size
    do
      tell [.look i]
      if sp.grid i ≠ wall then pure (some i) else pure none
  match dir with
  | 0 => go x (incr y)
  | 1 => go x (decr y)
  | 2 => go (incr x) y
  | 3 => go (decr x) y
  | _ => fail

def qaddLog (fuel : Nat) (sp : Shortpath) (cl : Nat) : Logged Act Shortpath := do
  tell [.qadd cl]
  lift (qadd fuel sp cl)

def qpopLog (sp : Shortpath) : Logged Act (Option Nat × Shortpath) := do
  tell ((qpop sp).1.toList.map .qpop)
  pure (qpop sp)

def relaxLog (fuel : Nat) (cur : Nat) (sp : Shortpath) (dir : Nat) : Logged Act Shortpath := do
  match ← getneighLog sp (sp.cells cur) dir with
  | none => pure sp
  | some nei =>
    if 0 > (sp.cells nei).c ∨ (sp.cells cur).c + 1 < (sp.cells nei).c then
      let sp := sp.upd nei fun c => { c with c := (sp.cells cur).c + 1 }
      let sp ← lift (qdel fuel sp nei)
      let sp ← qaddLog fuel sp nei
      pure (sp.upd nei fun c => { c with p := some cur })
    else pure sp

def searchBodyLog (fuel : Nat) (sp : Shortpath) :
    Logged Act (Shortpath ⊕ (Option Nat × Shortpath)) := do
  match ← qpopLog sp with
  | (none, sp) => pure (.inr (none, sp))
  | (some cur, sp) =>
    if cur = sp.dst then pure (.inr (some cur, sp))
    else do
      let sp ← (List.range ndirs).foldlM (relaxLog fuel cur) sp
      pure (.inl sp)

def drainBodyLog (sp : Shortpath) : Logged Act (Shortpath ⊕ Shortpath) := do
  match ← qpopLog sp with
  | (none, sp) => pure (.inr sp)
  | (some _, sp) => pure (.inl sp)

def reverseBodyLog (fuel : Nat) (s : Nat × Nat × Shortpath) :
    Logged Act ((Nat × Nat × Shortpath) ⊕ (Nat × Nat × Shortpath)) :=
  let (cur, i, sp) := s
  if sp.src = cur then pure (.inr s)
  else do
    let sp ← qaddLog fuel (sp.upd cur fun c => { c with c := toInt i }) cur
    let next ← lift (sp.cells cur).p
    pure (.inl (next, decr i, sp))

def writeBodyLog (s : Nat × Shortpath) :
    Logged Act ((Nat × Shortpath) ⊕ (Nat × Shortpath)) := do
  let (i, sp) := s
  match ← qpopLog sp with
  | (none, sp) => pure (.inr (i, sp))
  | (some cur, sp) =>
    let (sol, n) := u64str (toSize (sp.cells cur).y) sp.sol i
    let i := i + n
    let (sol, n) := u64str (toSize (sp.cells cur).x) sol i
    let i := i + n
    pure (.inl (i, { sp with sol := Function.update sol i 0 }))

/-- `search`, with the log. -/
def searchLog (fuel : Nat) (sp : Shortpath) : Logged Act (Int × Shortpath) := do
  let sp := searchInit sp
  let sp := sp.upd sp.src fun c => { c with c := 0 }
  let sp ← qaddLog fuel sp sp.src
  let (cur, sp) ← loop (searchBodyLog fuel) fuel sp
  if cur ≠ some sp.dst then pure (0, sp)
  else
    let sp ← loop drainBodyLog fuel sp
    let (cur, i, sp) ← loop (reverseBodyLog fuel) fuel (sp.dst, 2 ^ 64 - 1, sp)
    let sp ← qaddLog fuel (sp.upd cur fun c => { c with c := toInt i }) cur
    let (i, sp) ← loop writeBodyLog fuel (0, sp)
    pure (toInt i, { sp with sol := Function.update sp.sol i 0 })

section Erase

@[simp] theorem erase_getneighLog (sp : Shortpath) (cl : Cell) (dir : Nat) :
    erase (getneighLog sp cl dir) = getneigh sp cl dir := by
  unfold getneighLog getneigh
  split <;> simp only [erase_bind, erase_tell, Option.bind_some, erase_fail] <;> split <;> rfl

@[simp] theorem erase_qaddLog (fuel : Nat) (sp : Shortpath) (cl : Nat) :
    erase (qaddLog fuel sp cl) = qadd fuel sp cl := by
  simp [qaddLog]

@[simp] theorem erase_qpopLog (sp : Shortpath) : erase (qpopLog sp) = some (qpop sp) := by
  simp [qpopLog]

@[simp] theorem erase_relaxLog (fuel cur : Nat) (sp : Shortpath) (dir : Nat) :
    erase (relaxLog fuel cur sp dir) = relax fuel cur sp dir := by
  rw [relaxLog, relax, erase_bind, erase_getneighLog, Option.bind_eq_bind]
  congr 1
  funext nei
  cases nei with
  | none => rfl
  | some nei =>
    dsimp only
    split
    · simp
    · rfl

theorem erase_searchBodyLog (fuel : Nat) (sp : Shortpath) :
    erase (searchBodyLog fuel sp) = searchBody fuel sp := by
  rw [searchBodyLog, searchBody, erase_bind, erase_qpopLog, Option.bind_some]
  rcases qpop sp with ⟨_ | cur, sp⟩
  · rfl
  · dsimp only
    split
    · rfl
    · rw [erase_bind, erase_foldlM]
      simp only [erase_relaxLog]
      cases (List.range ndirs).foldlM (relax fuel cur) sp <;> rfl

theorem erase_drainBodyLog (sp : Shortpath) :
    erase (drainBodyLog sp) = drainBody sp := by
  rw [drainBodyLog, drainBody, erase_bind, erase_qpopLog, Option.bind_some]
  rcases qpop sp with ⟨_ | cur, sp⟩
  · rfl
  · rfl

theorem erase_reverseBodyLog (fuel : Nat) (s : Nat × Nat × Shortpath) :
    erase (reverseBodyLog fuel s) = reverseBody fuel s := by
  obtain ⟨cur, i, sp⟩ := s
  dsimp only [reverseBodyLog, reverseBody]
  split
  · rfl
  · simp

theorem erase_writeBodyLog (s : Nat × Shortpath) :
    erase (writeBodyLog s) = writeBody s := by
  obtain ⟨i, sp⟩ := s
  rw [writeBodyLog, writeBody, erase_bind, erase_qpopLog, Option.bind_some]
  rcases qpop sp with ⟨_ | cur, sp⟩
  · rfl
  · rfl

/-- The log leaves the search as it is. -/
theorem erase_searchLog (fuel : Nat) (sp : Shortpath) :
    erase (searchLog fuel sp) = search fuel sp := by
  unfold searchLog search
  simp only [erase_bind, erase_qaddLog, erase_loop (erase_searchBodyLog fuel),
    Option.bind_eq_bind]
  congr 1
  funext sp
  congr 1
  funext r
  split
  · rfl
  · simp only [erase_bind, erase_qaddLog, erase_loop erase_drainBodyLog,
      erase_loop (erase_reverseBodyLog fuel), erase_loop erase_writeBodyLog]
    rfl

end Erase

/-- What is looked at lies in the grid, and what is queued off its border and
clear of the blockers. -/
def Act.Clear (sp : Shortpath) : Act → Prop
  | .look i => i < sp.size * sp.size
  | .qadd i => Inner sp.size i ∧ sp.grid i ≠ wall
  | .qpop _ => True

section Clear
variable {sp₀ sp : Shortpath} {par : Nat → Option Nat}

theorem Walled.inner (h : Walled sp) (hi : Open sp i) : Inner sp.size i := by
  obtain ⟨hr, hr', hc, hc'⟩ := h.inside hi
  refine ⟨hi.1, fun hb => ?_⟩
  unfold Border at hb
  omega

theorem Walled.clear (h : Walled sp₀) (hi : Open sp₀ i) : (Act.qadd i).Clear sp₀ :=
  ⟨h.inner hi, hi.2⟩

theorem getneighLog_clear (h : Walled sp₀) (hp : Placed sp₀ par sp) (hu : Open sp₀ u)
    (hdir : dir < ndirs) : Only (Act.Clear sp₀) (getneighLog sp (sp.cells u) dir) := by
  obtain ⟨hx, hy⟩ := hp.toSize h hu
  obtain ⟨hdown, hup, hright, hleft⟩ := h.indexofxy_step hu
  have hlook : Only (Act.Clear sp₀) (tell [Act.look (step sp₀.size u dir)]) := by
    apply Only.tell
    intro a ha
    obtain rfl := List.mem_singleton.mp ha
    exact h.step_lt hu hdir
  have hrest : ∀ i, Only (Act.Clear sp₀)
      (if sp.grid i ≠ wall then pure (some i) else pure none : Logged Act (Option Nat)) := by
    intro i
    split
    · exact Only.pure _
    · exact Only.pure _
  unfold getneighLog
  rw [hx, hy, hp.size]
  match dir, hdir with
  | 0, _ =>
    simp only [hdown]
    exact hlook.bind fun _ _ => hrest _
  | 1, _ =>
    simp only [hup]
    exact hlook.bind fun _ _ => hrest _
  | 2, _ =>
    simp only [hright]
    exact hlook.bind fun _ _ => hrest _
  | 3, _ =>
    simp only [hleft]
    exact hlook.bind fun _ _ => hrest _

theorem qaddLog_clear (h : (Act.qadd cl).Clear sp₀) (fuel : Nat) (sp : Shortpath) :
    Only (Act.Clear sp₀) (qaddLog fuel sp cl) := by
  refine Only.bind (Only.tell fun a ha => ?_) fun _ _ => Only.lift _
  obtain rfl := List.mem_singleton.mp ha
  exact h

theorem qpopLog_clear (sp : Shortpath) : Only (Act.Clear sp₀) (qpopLog sp) := by
  refine Only.bind (Only.tell fun a ha => ?_) fun _ _ => Only.pure _
  obtain ⟨i, -, rfl⟩ := List.mem_map.mp ha
  trivial

theorem relaxLog_clear (h : Walled sp₀) (hp : Placed sp₀ par sp) (hu : Open sp₀ u)
    (hdir : dir < ndirs) (fuel : Nat) : Only (Act.Clear sp₀) (relaxLog fuel u sp dir) := by
  refine Only.bind (getneighLog_clear h hp hu hdir) fun nei hnei => ?_
  rw [erase_getneighLog, getneigh_spec h hp hu hdir] at hnei
  obtain rfl := Option.some.inj hnei
  by_cases hopen : sp₀.grid (step sp₀.size u dir) ≠ wall
  · rw [if_pos hopen]
    dsimp only
    split
    · have hclear := h.clear ⟨h.step_lt hu hdir, hopen⟩
      exact (Only.lift _).bind fun _ _ => (qaddLog_clear hclear fuel _).bind fun _ _ => Only.pure _
    · exact Only.pure _
  · rw [if_neg hopen]
    exact Only.pure _

/-- One pass of the main loop. -/
theorem searchBodyLog_clear (hg : Walled sp₀) (hf : sp₀.size * sp₀.size < fuel)
    (h : Searching sp₀ n sp s gone) : Only (Act.Clear sp₀) (searchBodyLog fuel sp) := by
  obtain ⟨href, hinv, -⟩ := h
  obtain ⟨q, cost, par⟩ := s
  refine (qpopLog_clear sp).bind fun r hr => ?_
  rw [erase_qpopLog] at hr
  obtain rfl := Option.some.inj hr
  cases q with
  | nil =>
    rw [qpop_nil href.queue]
    exact Only.pure _
  | cons cur q =>
    obtain ⟨sp₁, hqpop, hr, hq₁⟩ := qpop_cons href.queue
    have hvisit := hinv.pop
    have href₁ : Refines sp₀ sp₁ ⟨q, cost, par⟩ := href.popped hr hq₁
    rw [hqpop]
    dsimp only
    split
    · exact Only.pure _
    · have hopen : Open sp₀ cur := reachable_open hg.src (hvisit.reachable hvisit.popped.1)
      refine Only.bind (Only.foldlM (fun dirs sp => (∀ dir ∈ dirs, dir < ndirs) ∧
          ∃ s pend, Refines sp₀ sp s ∧ Bfs.Visiting (graph sp₀) sp₀.src cur pend s)
        ?_ ?_ _ ⟨fun _ => List.mem_range.mp, _, _, href₁, hvisit⟩) fun _ _ => Only.pure _
      · rintro dir dirs sp ⟨hdirs, s, pend, href, -⟩
        exact relaxLog_clear hg href.toPlaced hopen (hdirs dir (by simp)) fuel
      · rintro dir dirs sp t ⟨hdirs, s, pend, href, hv⟩ ht
        obtain ⟨sp', s', hrun, href', hv', -⟩ :=
          relax_spec hg href hv hopen (hdirs dir (by simp)) hf
        rw [erase_relaxLog, hrun] at ht
        obtain rfl := Option.some.inj ht
        exact ⟨fun d hd => hdirs d (by simp [hd]), s', _, href', hv'⟩

theorem drainLog_clear (n : Nat) (sp : Shortpath) :
    Only (Act.Clear sp₀) (loop drainBodyLog n sp) := by
  refine Only.loop (fun _ => True) (fun sp _ => ?_) (fun _ _ _ _ => trivial) n trivial
  refine (qpopLog_clear sp).bind fun r _ => ?_
  rcases r with ⟨_ | cur, t⟩
  · exact Only.pure _
  · exact Only.pure _

theorem writeLog_clear (n : Nat) (s : Nat × Shortpath) :
    Only (Act.Clear sp₀) (loop writeBodyLog n s) := by
  refine Only.loop (fun _ => True) (fun s _ => ?_) (fun _ _ _ _ => trivial) n trivial
  refine (qpopLog_clear s.2).bind fun r _ => ?_
  rcases r with ⟨_ | cur, t⟩
  · exact Only.pure _
  · exact Only.pure _

/-- On the way back from `v` there are only open cells. -/
def Back (sp₀ : Shortpath) (par : Nat → Option Nat) (v : Nat) : Prop :=
  ∃ l, Bfs.Trail par sp₀.src v l ∧ ∀ i ∈ l, Open sp₀ i

theorem Back.open (h : Back sp₀ par v) : Open sp₀ v := by
  obtain ⟨l, ht, hopen⟩ := h
  obtain ⟨t, rfl⟩ := ht.head
  exact hopen v (by simp)

theorem Back.next (h : Back sp₀ par v) (hv : v ≠ sp₀.src) (hu : par v = some u) :
    Back sp₀ par u := by
  obtain ⟨l, ht, hopen⟩ := h
  cases ht with
  | source => exact absurd rfl hv
  | @step _ w l _ hpar ht =>
    obtain rfl := Option.some.inj (hpar.symm.trans hu)
    exact ⟨l, ht, fun i hi => hopen i (by simp [hi])⟩

theorem reverseBody_back (hp : Placed sp₀ par sp) (h : Back sp₀ par v)
    (hb : reverseBody fuel (v, i, sp) = some (.inl (u, j, sp'))) :
    Placed sp₀ par sp' ∧ Back sp₀ par u := by
  unfold reverseBody at hb
  dsimp only at hb
  split at hb
  · cases hb
  · next hne =>
    obtain ⟨sp₁, hadd, hb⟩ := Option.bind_eq_some_iff.mp hb
    obtain ⟨w, hw, hb⟩ := Option.bind_eq_some_iff.mp hb
    obtain ⟨rfl, h'⟩ := Prod.mk.inj (Sum.inl.inj (Option.some.inj hb))
    obtain ⟨-, rfl⟩ := Prod.mk.inj h'
    have hp₁ := (hp.upd (i := v) (f := fun c => { c with c := toInt i })
      fun _ => ⟨rfl, rfl, rfl⟩).requeued (qadd_requeued hadd)
    rw [(hp₁.cells v h.open.1).2.2] at hw
    rw [hp.src] at hne
    exact ⟨hp₁, h.next (Ne.symm hne) hw⟩

theorem reverseBody_end (hp : Placed sp₀ par sp) (h : Back sp₀ par v)
    (hrun : run (reverseBody fuel) n (v, i, sp) = some (u, j, sp')) : Open sp₀ u := by
  refine run_partial (fun s => Placed sp₀ par s.2.2 ∧ Back sp₀ par s.1) (fun r => Open sp₀ r.1)
    ?_ ?_ ⟨hp, h⟩ hrun
  · rintro ⟨v, i, sp⟩ ⟨u, j, sp'⟩ ⟨hp, h⟩ hb
    exact reverseBody_back hp h hb
  · rintro ⟨v, i, sp⟩ r ⟨-, h⟩ hb
    unfold reverseBody at hb
    dsimp only at hb
    split at hb
    · obtain rfl := Sum.inr.inj (Option.some.inj hb)
      exact h.open
    · obtain ⟨_, -, hb⟩ := Option.bind_eq_some_iff.mp hb
      obtain ⟨_, -, hb⟩ := Option.bind_eq_some_iff.mp hb
      cases hb

theorem reverseLog_clear (hg : Walled sp₀) (hp : Placed sp₀ par sp) (h : Back sp₀ par v)
    (fuel n i : Nat) : Only (Act.Clear sp₀) (loop (reverseBodyLog fuel) n (v, i, sp)) := by
  refine Only.loop (fun s => Placed sp₀ par s.2.2 ∧ Back sp₀ par s.1) ?_ ?_ n ⟨hp, h⟩
  · rintro ⟨v, i, sp⟩ ⟨hp, h⟩
    dsimp only [reverseBodyLog]
    split
    · exact Only.pure _
    · exact (qaddLog_clear (hg.clear h.open) fuel _).bind fun _ _ =>
        (Only.lift _).bind fun _ _ => Only.pure _
  · rintro ⟨v, i, sp⟩ ⟨u, j, sp'⟩ ⟨hp, h⟩ hb
    rw [erase_reverseBodyLog] at hb
    exact reverseBody_back hp h hb

theorem searchLog_main (hg : Walled sp₀) (hf : sp₀.size * sp₀.size < fuel)
    (h : Refines sp₀ sp (Bfs.start sp₀.src)) (n : Nat) :
    Only (Act.Clear sp₀) (loop (searchBodyLog fuel) n sp) := by
  refine Only.loop (fun sp => ∃ n s gone, Searching sp₀ n sp s gone) ?_ ?_ n
    ⟨_, _, _, .start hg h⟩
  · rintro sp ⟨n, s, gone, h⟩
    exact searchBodyLog_clear hg hf h
  · rintro sp t ⟨n, s, gone, h⟩ ht
    rw [erase_searchBodyLog] at ht
    rcases searchBody_spec hg hf h with ⟨sp', s', gone', m, hb, -, h'⟩ | ⟨r, hb, -⟩
    · obtain rfl := Sum.inl.inj (Option.some.inj (ht.symm.trans hb))
      exact ⟨m, s', gone', h'⟩
    · cases ht.symm.trans hb

/-- Whatever there is to be found, the search keeps to the cells inside of the walls. -/
theorem searchLog_clear (hg : Walled sp₀) (hf : sp₀.size * sp₀.size < fuel) :
    Only (Act.Clear sp₀) (searchLog fuel sp₀) := by
  obtain ⟨sp₁, hstart, href₁⟩ := search_start hg fuel (by omega)
  obtain ⟨r, hmain, s, pend, href₂, hinv, hend⟩ := searchBody_run hg href₁ hf
  have hsrc : (searchInit sp₀).src = sp₀.src := by
    rw [(searchInit_spec hg.bound).2]
  unfold searchLog
  refine (qaddLog_clear (hsrc ▸ hg.clear hg.src) fuel _).bind fun sp hsp => ?_
  rw [erase_qaddLog] at hsp
  obtain rfl := Option.some.inj (hsp.symm.trans hstart)
  refine (searchLog_main hg hf href₁ fuel).bind fun r' hr' => ?_
  rw [erase_loop (erase_searchBodyLog fuel)] at hr'
  obtain rfl := Option.some.inj (hmain.symm.trans hr')
  obtain ⟨cur, sp₂⟩ := r
  dsimp only
  split
  · exact Only.pure _
  next hcur =>
  -- the way back from `dst`
  have hback : Back sp₀ s.par sp₀.dst := by
    rcases hend with ⟨rfl, -⟩ | ⟨-, hcost⟩
    · exact absurd (not_not.mp hcur) (by simp)
    · obtain ⟨l, htrail, hpath⟩ := hinv.trail hcost
      refine ⟨l, htrail, fun i hi => ?_⟩
      exact reachable_open hg.src (hpath.mem (List.mem_reverse.mpr hi)).1
  obtain ⟨sp₃, hdrain, hr₃, -⟩ := drainBody_run href₂.queue
    (Nat.lt_of_le_of_lt (queue_length href₂) hf)
  have hp₃ := href₂.toPlaced.requeued hr₃
  refine (drainLog_clear fuel sp₂).bind fun sp hsp => ?_
  rw [erase_loop erase_drainBodyLog] at hsp
  obtain rfl := Option.some.inj (hdrain.symm.trans hsp)
  have hback' : Back sp₀ s.par sp₃.dst := by
    rw [hp₃.dst]
    exact hback
  refine (reverseLog_clear hg hp₃ hback' fuel fuel _).bind fun ⟨cur, i, sp₄⟩ hrev => ?_
  rw [erase_loop (erase_reverseBodyLog fuel)] at hrev
  have hopen : Open sp₀ cur := reverseBody_end hp₃ hback' hrev
  exact (qaddLog_clear (hg.clear hopen) fuel _).bind fun _ _ =>
    (writeLog_clear fuel _).bind fun _ _ => Only.pure _

end Clear

/-- The grid as `popgrid` hands it on, with at most `nblks` blockers. -/
structure Laid (size nblks : Nat) (sp : Shortpath) : Prop where
  border : ∀ i, i < size * size → Border size i → sp.grid i = wall
  src : Inner size sp.src
  dst : Inner size sp.dst
  distinct : sp.src ≠ sp.dst
  marks : ∀ i, i < size * size →
    (sp.grid i = srcMark ↔ i = sp.src) ∧ (sp.grid i = dstMark ↔ i = sp.dst)
  blockers : ((List.range (size * size)).filter fun i =>
    ¬ Border size i ∧ sp.grid i = wall).length ≤ nblks

theorem Populated.laid {size : Nat} (h : Populated size bl sp) : Laid size bl.length sp := by
  have hmarks : wall ≠ srcMark ∧ wall ≠ dstMark ∧ srcMark ≠ dstMark ∧ blank ≠ srcMark ∧
    blank ≠ dstMark ∧ blank ≠ wall ∧ srcMark ≠ wall ∧ dstMark ≠ wall := by decide
  have hborder : ∀ i, Border size i → i ≠ sp.src ∧ i ≠ sp.dst := by
    intro i hb
    constructor
    · rintro rfl
      exact h.src.2 hb
    · rintro rfl
      exact h.dst.2 hb
  have hdistinct := h.distinct
  refine ⟨fun i hi hb => ?_, h.src, h.dst, h.distinct, fun i hi => ?_, ?_⟩
  · rw [h.grid i hi, if_pos hb]
  · have hb := hborder i
    rw [h.grid i hi]
    grind
  · refine (List.Nodup.subperm (List.nodup_range.filter _) fun i hi => ?_).length_le
    obtain ⟨hi, hw⟩ := List.mem_filter.mp hi
    obtain ⟨hb, hw⟩ := of_decide_eq_true hw
    rw [h.grid i (List.mem_range.mp hi), if_neg hb] at hw
    grind

/-- Whatever is drawn, the walls that `popgrid` leaves keep the search that follows
inside of the grid. -/
theorem search_inside {γ : Type} {rand : Rand γ} {g g' : γ} {n nblks : Nat} {sp sp' : Shortpath}
    (hb : sp.size * sp.size < 2 ^ 31) (h : popgrid fuel n rand nblks sp g = some (sp', g'))
    (hf : sp.size * sp.size < fuel') :
    Laid sp.size nblks sp' ∧ ∃ r sp'' acts, searchLog fuel' sp' = some ((r, sp''), acts) ∧
      search fuel' sp' = some (r, sp'') ∧
      (∀ i, .qadd i ∈ acts → Inner sp.size i ∧ sp'.grid i ≠ wall) ∧
      ∀ i, .look i ∈ acts → i < sp.size * sp.size := by
  have hs : sp.size < 2 ^ 31 := Nat.lt_of_le_of_lt (Nat.le_mul_self _) hb
  obtain ⟨bl, hlen, hpop⟩ := popgrid_spec h hs
  obtain ⟨hborder, hsrc, hdst, hne, hmarks, hblockers⟩ := hpop.laid
  have hg := hpop.walled hs
  have hsize := hpop.size
  have hpg : Popgrid sp' := ⟨hg.size, hsize.symm ▸ hb, hg.border, hg.src, hg.dst, hne⟩
  obtain ⟨r, sp'', hrun, -⟩ := search_spec hpg (hsize.symm ▸ hf)
  obtain ⟨acts, hacts⟩ := erase_eq_some.mp ((erase_searchLog fuel' sp').trans hrun)
  have hclear := searchLog_clear hg (hsize.symm ▸ hf) _ _ hacts
  refine ⟨⟨hborder, hsrc, hdst, hne, hmarks, Nat.le_trans hblockers hlen⟩, r, sp'', acts, hacts,
    hrun, fun i hi => ?_, fun i hi => ?_⟩
  · rw [← hsize]
    exact hclear _ hi
  · rw [← hsize]
    exact hclear _ hi

/-- A generator that gives what is in a list. -/
def stream : Rand (List UInt64)
  | [] => (0, [])
  | v :: vs => (v, vs)

/-- The smallest grid, with a blocker drawn onto the start and another one beside it. -/
theorem search_inside_small : ∃ sp' g',
    popgrid 1 16 stream 2 smallGrid [1, 1, 2, 2, 1, 1, 1, 2] = some (sp', g') ∧
    Laid smallGrid.size 2 sp' ∧ ∃ r sp'' acts, searchLog 17 sp' = some ((r, sp''), acts) ∧
      search 17 sp' = some (r, sp'') ∧
      (∀ i, .qadd i ∈ acts → Inner smallGrid.size i ∧ sp'.grid i ≠ wall) ∧
      ∀ i, .look i ∈ acts → i < smallGrid.size * smallGrid.size := by
  obtain ⟨⟨sp', g'⟩, h⟩ := Option.isSome_iff_exists.mp
    (show (popgrid 1 16 stream 2 smallGrid [1, 1, 2, 2, 1, 1, 1, 2]).isSome by decide +kernel)
  exact ⟨sp', g', h, search_inside (by decide) h (by decide)⟩

end Oin17.Chals
