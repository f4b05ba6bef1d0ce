import Mathlib.Combinatorics.SimpleGraph.Metric
import Mathlib.Data.List.Sort

namespace Oin17.Bfs
open SimpleGraph

variable {V : Type} {G : SimpleGraph V} {src : V}

/-- A shortest path on which every vertex but the first comes after the least,
for `le`, of its neighbours that are one step closer to the source. -/
structure CanonicalPath (G : SimpleGraph V) (le : V → V → Prop) (src dst : V) (path : List V) :
    Prop where
  head : path.head? = some src
  last : path.getLast? = some dst
  chain : path.IsChain G.Adj
  short : path.length = G.dist src dst + 1
  least : path.IsChain fun u v =>
    ∀ w, G.Adj w v → G.Reachable src w → G.dist src w + 1 = G.dist src v → le u w

theorem dist_adj_le (hr : G.Reachable src u) (ha : G.Adj u v) :
    G.dist src v ≤ G.dist src u + 1 := by
  obtain ⟨q, hq⟩ := hr.exists_walk_length_eq_dist
  have := dist_le (q.concat ha)
  rwa [Walk.length_concat, hq] at this

/-- Every vertex but the source has a neighbour one step closer to it. -/
theorem exists_closer (hr : G.Reachable src v) (hne : v ≠ src) :
    ∃ u, G.Adj u v ∧ G.Reachable src u ∧ G.dist src u + 1 = G.dist src v := by
  obtain ⟨p, hp⟩ := hr.exists_walk_length_eq_dist
  have hnil : ¬ p.Nil := fun h => hne h.eq.symm
  have hadj : G.Adj p.penultimate v := p.adj_penultimate hnil
  refine ⟨p.penultimate, hadj, ⟨p.dropLast⟩, ?_⟩
  have hlen : p.dropLast.length + 1 = p.length := by
    rw [← Walk.length_concat _ hadj, Walk.concat_dropLast]
  have hle : G.dist src p.penultimate ≤ p.dropLast.length := dist_le _
  have hge : G.dist src v ≤ G.dist src p.penultimate + 1 := dist_adj_le ⟨p.dropLast⟩ hadj
  omega

/-- A chain of neighbours is no shorter than the distance it covers. -/
theorem dist_chain {path : List V} (hc : path.IsChain G.Adj) (hh : path.head? = some a)
    (hl : path.getLast? = some b) : G.Reachable a b ∧ G.dist a b + 1 ≤ path.length := by
  induction path generalizing a with
  | nil => cases hh
  | cons c t ih =>
    obtain rfl : c = a := Option.some.inj hh
    cases t with
    | nil =>
      obtain rfl : c = b := Option.some.inj hl
      exact ⟨Reachable.refl c, by simp⟩
    | cons d t =>
      obtain ⟨hcd, hc⟩ := List.isChain_cons_cons.mp hc
      rw [List.getLast?_cons_cons] at hl
      obtain ⟨hr, hd⟩ := ih hc rfl hl
      have hdist := dist_adj_le hr.symm hcd.symm
      rw [dist_comm, dist_comm (u := b)] at hdist
      exact ⟨hcd.reachable.trans hr, by rw [List.length_cons]; omega⟩

/-- A chain that climbs by at most one a step, and is just long enough for its
climb, climbs by one at every step. -/
theorem chain_levels {f : V → Nat} {path : List V} (hc : path.IsChain fun u v => f v ≤ f u + 1)
    (hh : path.head? = some a) (hl : path.getLast? = some b) (hlen : path.length + f a ≤ f b + 1) :
    path.map f = List.range' (f a) path.length := by
  induction path generalizing a with
  | nil => rfl
  | cons c t ih =>
    obtain rfl : c = a := Option.some.inj hh
    cases t with
    | nil => rfl
    | cons d t =>
      obtain ⟨hcd, hc⟩ := List.isChain_cons_cons.mp hc
      rw [List.getLast?_cons_cons] at hl
      rw [List.length_cons] at hlen
      have ht := ih hc rfl hl (by omega)
      have hmem : f b ∈ (d :: t).map f := List.mem_map_of_mem (List.mem_of_getLast? hl)
      rw [ht, List.mem_range'_1] at hmem
      have hd : f d = f c + 1 := by omega
      rw [List.map_cons, ht, hd, List.length_cons (a := c), List.range'_succ]

theorem CanonicalPath.reachable (h : CanonicalPath G le src dst path) : G.Reachable src dst :=
  (dist_chain h.chain h.head h.last).1

theorem CanonicalPath.mem (h : CanonicalPath G le src dst path) (hw : w ∈ path) :
    G.Reachable src w ∧ G.dist src w ≤ G.dist src dst := by
  obtain ⟨a, b, rfl⟩ := List.append_of_mem hw
  have hc : (a ++ [w]).IsChain G.Adj := h.chain.infix ⟨[], b, by simp⟩
  have hhead : (a ++ [w]).head? = some src := by
    have := h.head
    cases a <;> exact this
  obtain ⟨hr, hd⟩ := dist_chain hc hhead (b := w) (by simp)
  have hs := h.short
  simp only [List.length_append, List.length_cons, List.length_nil] at hd hs
  exact ⟨hr, by omega⟩

/-- Dropping the last vertex of a canonical path leaves a canonical path to the
best neighbour of that vertex. -/
theorem CanonicalPath.init (h : CanonicalPath G le src v (path ++ [u, v])) :
    CanonicalPath G le src u (path ++ [u]) ∧ G.Adj u v ∧ G.dist src u + 1 = G.dist src v ∧
      ∀ w, G.Adj w v → G.Reachable src w → G.dist src w + 1 = G.dist src v → le u w := by
  obtain ⟨hh, -, hc, hs, hle⟩ := h
  rw [List.isChain_append_cons_cons] at hc hle
  have hhead : (path ++ [u]).head? = some src := by
    cases path <;> exact hh
  have hd := dist_chain hc.1 hhead (b := u) (by simp)
  have hadj := dist_adj_le hd.1 hc.2.1
  simp only [List.length_append, List.length_cons, List.length_nil] at hs hd
  exact ⟨⟨hhead, by simp, hc.1, by simp; omega, hle.1⟩, hc.2.1, by omega, hle.2.1⟩

theorem CanonicalPath.unique (hle : ∀ a b, le a b → le b a → a = b)
    (h : CanonicalPath G le src v p) (h' : CanonicalPath G le src v q) : p = q := by
  induction hn : p.length generalizing v p q with
  | zero =>
    have := h.short
    omega
  | succ n ih =>
    have hlen : q.length = p.length := h'.short.trans h.short.symm
    obtain ⟨p, rfl⟩ := List.getLast?_eq_some_iff.mp h.last
    obtain ⟨q, rfl⟩ := List.getLast?_eq_some_iff.mp h'.last
    simp only [List.length_append, List.length_singleton] at hlen hn
    rcases List.eq_nil_or_concat p with rfl | ⟨p, u, rfl⟩
    · obtain rfl : q = [] := List.eq_nil_of_length_eq_zero (by simpa using hlen)
      rfl
    · rcases List.eq_nil_or_concat q with rfl | ⟨q, w, rfl⟩
      · simp at hlen
      · simp only [List.concat_eq_append, List.append_assoc, List.singleton_append] at h h' ⊢
        obtain ⟨hp, hua, hud, hum⟩ := h.init
        obtain ⟨hq, hwa, hwd, hwm⟩ := h'.init
        obtain rfl : u = w := hle u w (hum w hwa hq.reachable hwd) (hwm u hua hp.reachable hud)
        have := ih hp hq (by simpa using hn)
        rw [List.append_cons, this, ← List.append_cons]

theorem CanonicalPath.nodup (h : CanonicalPath G le src v p) : p.Nodup := by
  induction hn : p.length generalizing v p with
  | zero => exact List.eq_nil_of_length_eq_zero hn ▸ .nil
  | succ n ih =>
    obtain ⟨p, rfl⟩ := List.getLast?_eq_some_iff.mp h.last
    rcases List.eq_nil_or_concat p with rfl | ⟨p, u, rfl⟩
    · simp
    · simp only [List.concat_eq_append, List.append_assoc, List.singleton_append] at h hn ⊢
      obtain ⟨hp, -, hd, -⟩ := h.init
      rw [List.append_cons]
      refine List.nodup_append.mpr ⟨ih hp (by simpa using hn), by simp, fun a ha b hb => ?_⟩
      rintro rfl
      have := (hp.mem ha).2
      obtain rfl : a = v := by simpa using hb
      omega

/-- Following parents from `v` back to the source. -/
inductive Trail (par : V → Option V) (src : V) : V → List V → Prop where
  | source : Trail par src src [src]
  | step (hne : v ≠ src) (hp : par v = some u) (ht : Trail par src u l) : Trail par src v (v :: l)

theorem Trail.head (h : Trail par src v l) : ∃ t, l = v :: t := by
  cases h with
  | source => exact ⟨[], rfl⟩
  | step hne hp ht => exact ⟨_, rfl⟩

/-- A search ordered by cost and then by vertex: the queue, and the cost and
parent of what was discovered. -/
structure Frontier (V : Type) where
  queue : List V
  cost : V → Option Nat
  par : V → Option V

section Order
variable [LinearOrder V]

def rank (cost : V → Option Nat) (v : V) : Nat := (cost v).getD 0

/-- Cost first, then the vertex itself. -/
def Le (cost : V → Option Nat) (a b : V) : Prop :=
  rank cost a < rank cost b ∨ rank cost a = rank cost b ∧ a ≤ b

instance (cost : V → Option Nat) (a b : V) : Decidable (Le cost a b) := by
  unfold Le
  infer_instance

instance (cost : V → Option Nat) : Std.Total (Le cost) where
  total a b := by
    rcases Nat.lt_trichotomy (rank cost a) (rank cost b) with h | h | h
    · exact Or.inl (Or.inl h)
    · rcases le_total a b with hab | hab
      · exact Or.inl (Or.inr ⟨h, hab⟩)
      · exact Or.inr (Or.inr ⟨h.symm, hab⟩)
    · exact Or.inr (Or.inl h)

instance (cost : V → Option Nat) : IsTrans V (Le cost) where
  trans a b c hab hbc := by
    rcases hab with hab | ⟨hab, hle⟩ <;> rcases hbc with hbc | ⟨hbc, hle'⟩
    · exact Or.inl (hab.trans hbc)
    · exact Or.inl (hbc ▸ hab)
    · exact Or.inl (hab ▸ hbc)
    · exact Or.inr ⟨hab.trans hbc, hle.trans hle'⟩

theorem Le.antisymm {cost : V → Option Nat} (h : Le cost a b) (h' : Le cost b a) : a = b := by
  rcases h with h | ⟨he, h⟩ <;> rcases h' with h' | ⟨he', h'⟩
  · omega
  · omega
  · omega
  · exact le_antisymm h h'

/-- Entering the search at the source. -/
def start (src : V) : Frontier V :=
  { queue := [src], cost := Function.update (fun _ => none) src (some 0), par := fun _ => none }

/-- Discovering `v` from `u`. -/
def discover (s : Frontier V) (u v : V) : Frontier V :=
  let cost := Function.update s.cost v (some (rank s.cost u + 1))
  { queue := s.queue.orderedInsert (Le cost) v, cost := cost,
    par := Function.update s.par v (some u) }

/-- Taken off the queue. -/
def Frontier.Popped (s : Frontier V) (v : V) : Prop := (s.cost v).isSome ∧ v ∉ s.queue

/-- What holds between the steps of the search. While the neighbours of `u`
are gone through, `pend u v` tells which of them are still to come. -/
structure Inv (G : SimpleGraph V) (src : V) (pend : V → V → Prop) (s : Frontier V) : Prop where
  sorted : s.queue.Pairwise (Le s.cost)
  nodup : s.queue.Nodup
  source : s.cost src = some 0
  found : ∀ v d, s.cost v = some d → G.Reachable src v ∧ G.dist src v = d
  queued : ∀ v ∈ s.queue, (s.cost v).isSome
  closed : ∀ u v, s.Popped u → G.Adj u v → pend u v ∨ (s.cost v).isSome
  behind : ∀ u v, s.Popped u → v ∈ s.queue → Le s.cost u v
  parent : ∀ v, (s.cost v).isSome → v ≠ src → ∃ u, s.par v = some u ∧ s.Popped u ∧ G.Adj u v ∧
    G.dist src u + 1 = G.dist src v ∧
    ∀ w, G.Adj w v → G.Reachable src w → G.dist src w + 1 = G.dist src v → u ≤ w

theorem start_inv (G : SimpleGraph V) (src : V) : Inv G src (fun _ _ => False) (start src) := by
  have hcost : ∀ v, ((start src).cost v).isSome → v = src := by
    intro v hv
    by_contra hne
    simp [start, Function.update_of_ne hne] at hv
  refine ⟨by simp [start], by simp [start], by simp [start], ?_, by simp [start], ?_, ?_, ?_⟩
  · intro v d hd
    have hv := hcost v (by simp [hd])
    subst hv
    simp only [start, Function.update_self, Option.some.injEq] at hd
    exact ⟨Reachable.refl v, by simp [← hd]⟩
  · intro u v hu _
    exact absurd (hcost u hu.1 ▸ List.mem_singleton_self src) hu.2
  · intro u v hu _
    exact absurd (hcost u hu.1 ▸ List.mem_singleton_self src) hu.2
  · intro v hv hne
    exact absurd (hcost v hv) hne

theorem Inv.weaken (h : Inv G src pend s)
    (hw : ∀ u v, s.Popped u → G.Adj u v → pend u v → pend' u v ∨ (s.cost v).isSome) :
    Inv G src pend' s :=
  { h with closed := fun u v hu ha => (h.closed u v hu ha).elim (hw u v hu ha) Or.inr }

theorem Inv.rank_eq (h : Inv G src pend s) (hv : (s.cost v).isSome) :
    rank s.cost v = G.dist src v := by
  obtain ⟨d, hd⟩ := Option.isSome_iff_exists.mp hv
  rw [rank, hd, (h.found v d hd).2, Option.getD_some]

theorem Inv.reachable (h : Inv G src pend s) (hv : (s.cost v).isSome) : G.Reachable src v := by
  obtain ⟨d, hd⟩ := Option.isSome_iff_exists.mp hv
  exact (h.found v d hd).1

/-- The state after taking `u` off the queue: nothing popped comes after `u`,
and only neighbours of `u` may still be pending. -/
structure Visiting (G : SimpleGraph V) (src u : V) (pend : V → Prop) (s : Frontier V) : Prop
    extends Inv G src (fun a b => a = u ∧ pend b) s where
  popped : s.Popped u
  latest : ∀ v, s.Popped v → Le s.cost v u

theorem Inv.pop (h : Inv G src (fun _ _ => False) ⟨u :: q, cost, par⟩) :
    Visiting G src u (fun _ => True) ⟨q, cost, par⟩ := by
  have hsort := List.pairwise_cons.mp h.sorted
  have hnodup := List.nodup_cons.mp h.nodup
  have hpop : ∀ v, (⟨q, cost, par⟩ : Frontier V).Popped v →
      v = u ∨ (⟨u :: q, cost, par⟩ : Frontier V).Popped v := by
    intro v hv
    by_cases hvu : v = u
    · exact Or.inl hvu
    · exact Or.inr ⟨hv.1, by simpa [hvu] using hv.2⟩
  refine ⟨⟨hsort.2, hnodup.2, h.source, h.found, fun v hv => h.queued v (List.mem_cons_of_mem _ hv),
    ?_, ?_, ?_⟩, ⟨h.queued u List.mem_cons_self, hnodup.1⟩, ?_⟩
  · intro a b ha hab
    rcases hpop a ha with rfl | ha
    · exact Or.inl ⟨rfl, trivial⟩
    · exact Or.inr ((h.closed a b ha hab).resolve_left id)
  · intro a b ha hb
    rcases hpop a ha with rfl | ha
    · exact hsort.1 b hb
    · exact h.behind a b ha (List.mem_cons_of_mem _ hb)
  · intro v hv hne
    obtain ⟨w, hw, ⟨hd, hq⟩, hrest⟩ := h.parent v hv hne
    exact ⟨w, hw, ⟨hd, fun hm => hq (List.mem_cons_of_mem _ hm)⟩, hrest⟩
  · intro v hv
    rcases hpop v hv with rfl | hv
    · exact Or.inr ⟨rfl, le_refl _⟩
    · exact h.behind v u hv List.mem_cons_self

/-- Everything that is no farther from the source than the vertex being
visited is already discovered. -/
theorem Visiting.near (h : Visiting G src u pend s) (hr : G.Reachable src w)
    (hd : G.dist src w ≤ G.dist src u) : (s.cost w).isSome := by
  induction hn : G.dist src w generalizing w with
  | zero =>
    have : src = w := hr.dist_eq_zero_iff.mp hn
    subst this
    simp [h.source]
  | succ n ih =>
    have hne : w ≠ src := by
      rintro rfl
      simp at hn
    obtain ⟨z, hzw, hz, hdz⟩ := exists_closer hr hne
    have hzs := ih hz (by omega) (by omega)
    have hzq : z ∉ s.queue := by
      intro hm
      rcases h.behind u z h.popped hm with hlt | ⟨he, _⟩ <;>
        rw [h.rank_eq h.popped.1, h.rank_eq hzs] at * <;> omega
    rcases h.closed z w ⟨hzs, hzq⟩ hzw with ⟨rfl, _⟩ | hw
    · omega
    · exact hw

/-- A neighbour that was discovered before needs nothing more. -/
theorem Visiting.skip (h : Visiting G src u pend s) (hv : (s.cost v).isSome) :
    Visiting G src u (fun w => pend w ∧ w ≠ v) s := by
  refine ⟨h.toInv.weaken ?_, h.popped, h.latest⟩
  rintro a b _ _ ⟨rfl, hb⟩
  by_cases hbv : b = v
  · exact Or.inr (hbv ▸ hv)
  · exact Or.inl ⟨rfl, hb, hbv⟩

/-- Nor does what is no neighbour. -/
theorem Visiting.blocked (h : Visiting G src u pend s) (hv : ¬ G.Adj u v) :
    Visiting G src u (fun w => pend w ∧ w ≠ v) s := by
  refine ⟨h.toInv.weaken ?_, h.popped, h.latest⟩
  rintro a b _ hab ⟨rfl, hb⟩
  exact Or.inl ⟨rfl, hb, fun hbv => hv (hbv ▸ hab)⟩

theorem discover_cost (s : Frontier V) (u v : V) :
    (discover s u v).cost = Function.update s.cost v (some (rank s.cost u + 1)) := rfl

theorem mem_discover {s : Frontier V} : w ∈ (discover s u v).queue ↔ w = v ∨ w ∈ s.queue :=
  List.mem_orderedInsert _

theorem discover_popped {s : Frontier V} (hv : s.cost v = none) (w : V) :
    (discover s u v).Popped w ↔ s.Popped w := by
  unfold Frontier.Popped
  rw [mem_discover, discover_cost]
  by_cases hwv : w = v
  · subst hwv
    simp [hv]
  · simp [hwv]

theorem discover_le {s : Frontier V} (ha : a ≠ v) (hb : b ≠ v) :
    Le (discover s u v).cost a b ↔ Le s.cost a b := by
  simp [Le, rank, discover_cost, Function.update_of_ne ha, Function.update_of_ne hb]

theorem Visiting.dist_new (h : Visiting G src u pend s) (ha : G.Adj u v) (hv : s.cost v = none) :
    G.Reachable src v ∧ G.dist src v = G.dist src u + 1 := by
  have hur : G.Reachable src u := h.toInv.reachable h.popped.1
  have hvr : G.Reachable src v := hur.trans ha.reachable
  have hle := dist_adj_le hur ha
  refine ⟨hvr, ?_⟩
  by_contra hne
  have := h.near hvr (by omega)
  simp [hv] at this

/-- An equally close neighbour is discovered, and if it were popped before `u`
it would have discovered `v` itself. -/
theorem Visiting.least (h : Visiting G src u pend s) (hv : s.cost v = none) (hzv : G.Adj z v)
    (hz : G.Reachable src z) (hd : G.dist src z = G.dist src u) : u ≤ z := by
  have hzs := h.near hz (by omega)
  by_contra hlt
  have hzu : Le s.cost z u := Or.inr ⟨by rw [h.rank_eq hzs, h.rank_eq h.popped.1, hd],
    le_of_lt (not_le.mp hlt)⟩
  have hzq : z ∉ s.queue := by
    intro hm
    exact hlt (le_of_eq ((h.behind u z h.popped hm).antisymm hzu))
  rcases h.closed z v ⟨hzs, hzq⟩ hzv with ⟨rfl, _⟩ | hbad
  · exact hlt (le_refl _)
  · simp [hv] at hbad

/-- A new neighbour is one step farther than the vertex being visited, which
is its least possible parent, and it takes its place behind everything popped. -/
theorem Visiting.discover (h : Visiting G src u pend s) (ha : G.Adj u v) (hv : s.cost v = none) :
    Visiting G src u (fun w => pend w ∧ w ≠ v) (discover s u v) := by
  obtain ⟨hvr, hdist⟩ := h.dist_new ha hv
  have hne : ∀ w, (s.cost w).isSome → w ≠ v := by
    rintro w hw rfl
    simp [hv] at hw
  have hcost : (Bfs.discover s u v).cost v = some (G.dist src v) := by
    rw [discover_cost, Function.update_self, h.rank_eq h.popped.1, hdist]
  have hold : ∀ w, (s.cost w).isSome → (Bfs.discover s u v).cost w = s.cost w := by
    intro w hw
    rw [discover_cost, Function.update_of_ne (hne w hw)]
  have hsome : ∀ w, w ≠ v → ((Bfs.discover s u v).cost w).isSome → (s.cost w).isSome := by
    intro w hwv hw
    rwa [discover_cost, Function.update_of_ne hwv] at hw
  have hpop := discover_popped (u := u) hv
  have hle : ∀ a b, (s.cost a).isSome → (s.cost b).isSome →
      (Le (Bfs.discover s u v).cost a b ↔ Le s.cost a b) :=
    fun a b ha hb => discover_le (hne a ha) (hne b hb)
  refine ⟨⟨?_, ?_, ?_, ?_, ?_, ?_, ?_, ?_⟩, (hpop u).mpr h.popped, ?_⟩
  · apply List.Pairwise.orderedInsert
    apply h.sorted.imp_of_mem
    intro a b hma hmb hab
    exact (hle a b (h.queued a hma) (h.queued b hmb)).mpr hab
  · refine (List.perm_orderedInsert _ v s.queue).nodup_iff.mpr (List.nodup_cons.mpr ⟨?_, h.nodup⟩)
    intro hm
    exact hne v (h.queued v hm) rfl
  · rw [hold src (by simp [h.source]), h.source]
  · intro w d hd
    by_cases hwv : w = v
    · subst hwv
      rw [hcost] at hd
      exact ⟨hvr, Option.some.inj hd⟩
    · rw [discover_cost, Function.update_of_ne hwv] at hd
      exact h.found w d hd
  · intro w hm
    rcases mem_discover.mp hm with rfl | hm
    · simp [hcost]
    · rw [hold w (h.queued w hm)]
      exact h.queued w hm
  · intro a b hpa hab
    by_cases hbv : b = v
    · exact Or.inr (by simp [hbv, hcost])
    · rcases h.closed a b ((hpop a).mp hpa) hab with ⟨he, hb⟩ | hb
      · exact Or.inl ⟨he, hb, hbv⟩
      · exact Or.inr (by rw [hold b hb]; exact hb)
  · intro a b hpa hm
    have hap := (hpop a).mp hpa
    rcases mem_discover.mp hm with rfl | hm
    · -- what is popped is no later than `u`, and `v` costs more than `u`
      left
      have hau : rank s.cost a ≤ rank s.cost u := by
        rcases h.latest a hap with hlt | ⟨he, _⟩ <;> omega
      have hra : rank (Bfs.discover s u b).cost a = rank s.cost a := by
        rw [rank, hold a hap.1, rank]
      have hrb : rank (Bfs.discover s u b).cost b = G.dist src b := by
        rw [rank, hcost, Option.getD_some]
      rw [h.rank_eq h.popped.1] at hau
      omega
    · exact (hle a b hap.1 (h.queued b hm)).mpr (h.behind a b hap hm)
  · intro w hw hws
    by_cases hwv : w = v
    · subst hwv
      refine ⟨u, Function.update_self .., (hpop u).mpr h.popped, ha, hdist.symm, ?_⟩
      exact fun z hzw hzr hdz => h.least hv hzw hzr (by omega)
    · obtain ⟨z, hz, hzp, hrest⟩ := h.parent w (hsome w hwv hw) hws
      refine ⟨z, ?_, (hpop z).mpr hzp, hrest⟩
      change Function.update s.par v (some u) w = some z
      rw [Function.update_of_ne hwv, hz]
  · intro w hw
    have hw := (hpop w).mp hw
    exact (hle w u hw.1 h.popped.1).mpr (h.latest w hw)

/-- All neighbours of `u` have been gone through. -/
theorem Visiting.finish (h : Visiting G src u pend s) (hp : ∀ v, G.Adj u v → ¬ pend v) :
    Inv G src (fun _ _ => False) s := by
  apply h.toInv.weaken
  rintro a b _ hab ⟨rfl, hb⟩
  exact absurd hb (hp b hab)

/-- Once the queue is empty, everything reachable was popped. -/
theorem Inv.exhausted (h : Inv G src (fun _ _ => False) s) (hq : s.queue = [])
    (hr : G.Reachable src v) : s.Popped v := by
  induction hn : G.dist src v generalizing v with
  | zero =>
    have : src = v := hr.dist_eq_zero_iff.mp hn
    subst this
    exact ⟨by simp [h.source], by simp [hq]⟩
  | succ n ih =>
    have hne : v ≠ src := by
      rintro rfl
      simp at hn
    obtain ⟨z, hzv, hz, hdz⟩ := exists_closer hr hne
    exact ⟨(h.closed z v (ih hz (by omega)) hzv).resolve_left id, by simp [hq]⟩

/-- The parents of a discovered vertex form, backwards, its canonical path. -/
theorem Inv.trail (h : Inv G src pend s) (hv : (s.cost v).isSome) :
    ∃ l, Trail s.par src v l ∧ CanonicalPath G (· ≤ ·) src v l.reverse := by
  induction hn : G.dist src v generalizing v with
  | zero =>
    have : src = v := (h.reachable hv).dist_eq_zero_iff.mp hn
    subst this
    exact ⟨[src], .source, by simp, by simp, by simp, by simp, by simp⟩
  | succ n ih =>
    have hne : v ≠ src := by
      rintro rfl
      simp at hn
    obtain ⟨u, hpar, hu, hadj, hdu, hmin⟩ := h.parent v hv hne
    obtain ⟨l, ht, hl⟩ := ih hu.1 (by omega)
    obtain ⟨t, rfl⟩ := ht.head
    refine ⟨v :: u :: t, .step hne hpar ht, ?_, by simp, ?_, ?_, ?_⟩
    · have hhead := hl.head
      rw [List.reverse_cons, List.head?_append_of_ne_nil _ (by simp)]
      exact hhead
    · have hchain := hl.chain
      rw [List.isChain_reverse] at hchain ⊢
      exact List.isChain_cons_cons.mpr ⟨hadj, hchain⟩
    · have hshort := hl.short
      rw [List.length_reverse] at hshort ⊢
      rw [List.length_cons, hshort, hdu]
    · have hleast := hl.least
      rw [List.isChain_reverse] at hleast ⊢
      exact List.isChain_cons_cons.mpr ⟨hmin, hleast⟩

end Order

end Oin17.Bfs
