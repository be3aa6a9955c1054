import Mathlib.Data.List.Chain
import Ownership.Proofs.Acceptance
import Ownership.Proofs.Holdings

/-! # One owner for each resource

Where paths meet, an owner may hold one of several resources, and two owners may hold the same one:
one of them on each path. For all that there is a choice of one resource for each owner that gives
no resource to two of them, whichever of its resources one owner is to have, as long as ages are
told apart. And they are told apart where it matters: a resource that is the only one an owner may
hold is one from a path on which no point comes twice, and so is too young to be taken for another.
-/
namespace Ownership
open Std

namespace FlowState
variable {T : String → Prop} {limit : Int} {s t : FlowState} {τ : String → Resource} {x y : String}
    {q : Resource}
variable {origin : Location} {n : Nat} {source : String → Option String} {done : Location → Prop}

theorem mem_ownersOf : x ∈ s.ownersOf q ↔ q ∈ s.held x ∧ s.stateOf x = .owned := by
  simp only [ownersOf, isOwned, List.mem_map, List.mem_filter, Prod.exists,
    ExtTreeMap.mem_toList_iff_getElem?_eq_some,
    Bool.and_eq_true, ExtTreeSet.contains_iff_mem, beq_iff_eq, mem_held_iff]
  constructor
  · rintro ⟨_, held, ⟨hheld, hq, howned⟩, rfl⟩
    exact ⟨⟨held, hheld, hq⟩, howned⟩
  · rintro ⟨⟨held, hheld, hq⟩, howned⟩
    exact ⟨x, held, ⟨hheld, hq, howned⟩, rfl⟩

theorem Below.holder (h : Below s t) (hx : t.Holder T x) : s.Holder T x := by
  refine ⟨hx.1, OwnershipState.eq_owned_of_rank_le ?_⟩
  rw [← hx.2]
  exact h.states x

theorem Below.held (h : Below s t) (hq : q ∈ s.held x) : q ∈ t.held x := h.resources.mem_getD hq

theorem mem_held_merge (hq : q ∈ (s.merge t).held x) : q ∈ s.held x ∨ q ∈ t.held x := by
  obtain ⟨u, hu, hq⟩ := mem_held_iff.mp hq
  change (unite (·.union ·) s.resources t.resources)[x]? = some u at hu
  cases ht : t.resources[x]? with
  | none =>
    rw [getElem?_unite_of_none _ _ _ ht] at hu
    exact Or.inl (mem_held_iff.mpr ⟨u, hu, hq⟩)
  | some v =>
    rw [getElem?_unite_of_some _ _ _ ht] at hu
    cases hs : s.resources[x]? with
    | none =>
      rw [hs] at hu
      cases hu
      exact Or.inr (mem_held_iff.mpr ⟨v, ht, hq⟩)
    | some u' =>
      rw [hs] at hu
      cases hu
      rcases ExtTreeSet.mem_union_iff.mp hq with hq | hq
      · exact Or.inl (mem_held_iff.mpr ⟨u', hs, hq⟩)
      · exact Or.inr (mem_held_iff.mpr ⟨v, ht, hq⟩)

/-- A choice of one resource for each owner. None is for two owners, unless it is so old that it may
have been taken for another. -/
structure Allots (T : String → Prop) (limit : Int) (s : FlowState)
    (τ : String → Resource) : Prop where
  holds : ∀ x, s.Holder T x → τ x ∈ s.held x
  apart : ∀ x y, s.Holder T x → s.Holder T y → τ x = τ y → x = y ∨ (τ x).generation = limit
  nonneg : ∀ x, s.Holder T x → 0 ≤ (τ x).generation

/-- Only owners hold resources, and each resource that an owner may hold is its own in some
choice. -/
structure Consistent (T : String → Prop) (limit : Int) (s : FlowState) : Prop where
  bare : ∀ x, ¬T x → ∀ q, q ∉ s.held x
  allotted : ∃ τ, s.Allots T limit τ
  each : ∀ x, s.Holder T x → ∀ q ∈ s.held x, ∃ τ, s.Allots T limit τ ∧ τ x = q

theorem Allots.below (h : s.Allots T limit τ) (hst : Below s t) : t.Allots T limit τ where
  holds x hx := hst.held (h.holds x (hst.holder hx))
  apart x y hx hy := h.apart x y (hst.holder hx) (hst.holder hy)
  nonneg x hx := h.nonneg x (hst.holder hx)

theorem Consistent.merge (hs : s.Consistent T limit) (ht : t.Consistent T limit) :
    (s.merge t).Consistent T limit where
  bare x hx q hq := (mem_held_merge hq).elim (hs.bare x hx q) (ht.bare x hx q)
  allotted := by
    obtain ⟨τ, hτ⟩ := hs.allotted
    exact ⟨τ, hτ.below (.merge_left s t)⟩
  each x hx q hq := by
    rcases mem_held_merge hq with hq | hq
    · obtain ⟨τ, hτ, hx⟩ := hs.each x ((Below.merge_left s t).holder hx) q hq
      exact ⟨τ, hτ.below (.merge_left s t), hx⟩
    · obtain ⟨τ, hτ, hx⟩ := ht.each x ((Below.merge_right s t).holder hx) q hq
      exact ⟨τ, hτ.below (.merge_right s t), hx⟩

def reallot (origin : Location) (limit : Int) (n : Nat) (source : String → Option String)
    (τ : String → Resource) (x : String) : Resource :=
  match source x with
  | none => { origin }
  | some y => (Resource.agedAt origin limit)^[n] (τ y)

theorem Allots.rearranges (h : s.Allots T limit τ) (hst : Rearranges T origin limit n source s t)
    (hlimit : ∀ x, T x → 0 < limit) : t.Allots T limit (reallot origin limit n source τ) where
  holds x hx := by
    cases hsource : source x with
    | none =>
      rw [reallot, hsource]
      exact ((hst.minted x hx hsource).2 _).mpr rfl
    | some y =>
      obtain ⟨hy, hheld⟩ := hst.passed x y hx hsource
      rw [reallot, hsource]
      exact (hheld _).mpr ⟨τ y, h.holds y hy, rfl⟩
  apart x y hx hy heq := by
    have hpos := hlimit x hx.1
    cases hsx : source x with
    | none =>
      cases hsy : source y with
      | none => exact Or.inl (hst.injective x y hx hy (hsx.trans hsy.symm))
      | some y' =>
        obtain ⟨hy', -⟩ := hst.passed y y' hy hsy
        rw [reallot, reallot, hsx, hsy] at heq
        exact absurd heq.symm (Resource.agedAt_iterate_ne_fresh (hst.minted x hx hsx).1
          (h.nonneg y' hy') hpos)
    | some x' =>
      obtain ⟨hx', -⟩ := hst.passed x x' hx hsx
      cases hsy : source y with
      | none =>
        rw [reallot, reallot, hsx, hsy] at heq
        exact absurd heq (Resource.agedAt_iterate_ne_fresh (hst.minted y hy hsy).1
          (h.nonneg x' hx') hpos)
      | some y' =>
        obtain ⟨hy', -⟩ := hst.passed y y' hy hsy
        rw [reallot, reallot, hsx, hsy] at heq
        rw [reallot, hsx]
        rcases Resource.agedAt_iterate_eq heq with heq | hold
        · rcases h.apart x' y' hx' hy' heq with rfl | hold
          · exact Or.inl (hst.injective x y hx hy (hsx.trans hsy.symm))
          · exact Or.inr (Resource.agedAt_iterate_of_limit hold)
        · exact Or.inr hold
  nonneg x hx := by
    cases hsource : source x with
    | none => rw [reallot, hsource]
    | some y =>
      rw [reallot, hsource]
      exact Resource.agedAt_iterate_nonneg (h.nonneg y (hst.passed x y hx hsource).1)
        (Int.le_of_lt (hlimit x hx.1))

theorem Consistent.rearranges (h : s.Consistent T limit)
    (hst : Rearranges T origin limit n source s t) (hlimit : ∀ x, T x → 0 < limit) :
    t.Consistent T limit where
  bare := hst.bare h.bare
  allotted := by
    obtain ⟨τ, hτ⟩ := h.allotted
    exact ⟨_, hτ.rearranges hst hlimit⟩
  each x hx q hq := by
    cases hsource : source x with
    | none =>
      obtain ⟨τ, hτ⟩ := h.allotted
      refine ⟨_, hτ.rearranges hst hlimit, ?_⟩
      rw [reallot, hsource]
      exact (((hst.minted x hx hsource).2 q).mp hq).symm
    | some y =>
      obtain ⟨hy, hheld⟩ := hst.passed x y hx hsource
      obtain ⟨q', hq', rfl⟩ := (hheld q).mp hq
      obtain ⟨τ, hτ, rfl⟩ := h.each y hy q' hq'
      refine ⟨_, hτ.rearranges hst hlimit, ?_⟩
      rw [reallot, hsource]

/-- Each owner may hold a resource whose age is told apart, which is new if its point has not been
passed. -/
def Young (T : String → Prop) (limit : Int) (done : Location → Prop) (s : FlowState) : Prop :=
  ∀ x, s.Holder T x → ∃ q ∈ s.held x, q.generation < limit ∧ (done q.origin ∨ q.generation = 0)

theorem Young.below (h : s.Young T limit done) (hst : Below s t) : t.Young T limit done := by
  intro x hx
  obtain ⟨q, hq, hyoung⟩ := h x (hst.holder hx)
  exact ⟨q, hst.held hq, hyoung⟩

theorem Young.weaken {done' : Location → Prop} (h : s.Young T limit done)
    (hdone : ∀ l, done l → done' l) : s.Young T limit done' := by
  intro x hx
  obtain ⟨q, hq, hlt, hnew⟩ := h x hx
  exact ⟨q, hq, hlt, hnew.imp_left (hdone _)⟩

/-- A point that is passed for the first time makes nothing older than it makes things at once. -/
theorem Young.rearranges {done' : Location → Prop} (h : s.Young T limit done)
    (hst : Rearranges T origin limit n source s t) (hn : (n : Int) < limit) (horigin : ¬done origin)
    (hdone : ∀ l, done l → done' l) (hpassed : done' origin) : t.Young T limit done' := by
  intro x hx
  cases hsource : source x with
  | none =>
    exact ⟨_, ((hst.minted x hx hsource).2 _).mpr rfl,
      Int.lt_of_le_of_lt (Int.natCast_nonneg n) hn, Or.inr rfl⟩
  | some y =>
    obtain ⟨hy, hheld⟩ := hst.passed x y hx hsource
    obtain ⟨q, hq, hlt, hnew⟩ := h y hy
    refine ⟨_, (hheld _).mpr ⟨q, hq, rfl⟩, ?_⟩
    by_cases ho : q.origin = origin
    · have hzero := hnew.resolve_left (ho ▸ horigin)
      have hle : ((Resource.agedAt origin limit)^[n] q).generation ≤ q.generation + n :=
        Resource.agedAt_iterate_le
      refine ⟨by omega, Or.inl ?_⟩
      rw [Resource.agedAt_iterate_origin, ho]
      exact hpassed
    · rw [Resource.agedAt_iterate_of_ne ho]
      exact ⟨hlt, hnew.imp_left (hdone _)⟩

theorem Consistent.holder (h : s.Consistent T limit) (hx : x ∈ s.ownersOf q) : s.Holder T x := by
  obtain ⟨hq, howned⟩ := mem_ownersOf.mp hx
  exact ⟨by_contra fun hT => h.bare x hT q hq, howned⟩

/-- A resource of two owners is not the only one of either, if each may hold one whose age is told
apart. -/
theorem Consistent.exists_other (h : s.Consistent T limit) (hyoung : s.Young T limit done)
    (hx : x ∈ s.ownersOf q) (hy : y ∈ s.ownersOf q) (hxy : x ≠ y) :
    ∃ q', x ∈ s.ownersOf q' ∧ q' ≠ q := by
  by_contra hnone
  have honly : ∀ q' ∈ s.held x, q' = q := by
    intro q' hq'
    by_contra hne
    exact hnone ⟨q', mem_ownersOf.mpr ⟨hq', (mem_ownersOf.mp hx).2⟩, hne⟩
  obtain ⟨q', hq', hlt, -⟩ := hyoung x (h.holder hx)
  rw [honly q' hq'] at hlt
  obtain ⟨τ, hτ, hτy⟩ := h.each y (h.holder hy) q (mem_ownersOf.mp hy).1
  have hτx := honly _ (hτ.holds x (h.holder hx))
  rcases hτ.apart x y (h.holder hx) (h.holder hy) (hτx.trans hτy.symm) with heq | hold
  · exact hxy heq
  · rw [hτx] at hold
    omega

end FlowState

namespace Function
variable {f : Function} {types : TypeTable} {x y : String}

theorem Owns.mem_names (h : f.Owns types x) : x ∈ f.bindings.names := by
  obtain ⟨b, -, hb, -⟩ := h
  exact Registry.contains_iff_mem_names.mp (Registry.contains_iff_get?.mpr ⟨b, hb⟩)

/-- Distinct bindings are no more than there are. -/
theorem length_le_size {l : List String} (hl : l.Nodup) (hmem : ∀ x ∈ l, x ∈ f.bindings.names) :
    l.length ≤ f.bindings.size := by
  have hle := hl.length_le_of_subset hmem
  rwa [Registry.names, List.length_map] at hle

theorem Owns.size_pos (h : f.Owns types x) : 0 < f.bindings.size :=
  length_le_size (l := [x]) (by simp) (by simpa using h.mem_names)

/-- Where something is owned, ages are told apart. -/
theorem Owns.limit_pos (h : f.Owns types x) : (0 : Int) < f.bindings.size :=
  Int.natCast_pos.mpr h.size_pos

/-- A block that can be reached is reached on a path that passes no block twice. -/
theorem Reachable.exists_nodup_path {l : String} (h : f.Reachable l) :
    ∃ path, f.IsPath (l :: path) ∧ (l :: path).Nodup := by
  obtain ⟨entry, he, h⟩ := h
  induction h with
  | refl => exact ⟨[], .singleton he, by simp⟩
  | @tail l m _ hm ih =>
    obtain ⟨path, hpath, hnodup⟩ := ih
    by_cases hmem : m ∈ l :: path
    · -- the path has been at the block before: it is cut off there
      obtain ⟨before, after, hsplit⟩ := List.append_of_mem hmem
      rw [hsplit] at hpath hnodup
      obtain ⟨hchain, -, hlast⟩ := hpath
      refine ⟨after, ⟨hchain.right_of_append, List.cons_ne_nil m after, ?_⟩,
        (List.nodup_append.mp hnodup).2.1⟩
      rwa [List.getLast?_append_of_ne_nil _ (List.cons_ne_nil m after)] at hlast
    · exact ⟨l :: path, hpath.cons hm, List.nodup_cons.mpr ⟨hmem, hnodup⟩⟩

def ParamsTyped (f : Function) : Prop :=
  ∀ p ∈ f.signature.params, ∀ b, f.bindings.get? p.name = some b → b.type = p.type

end Function

/-- Where there are two owners, a silent operation makes nothing as old as there are bindings. -/
theorem Site.Rearranges.lt_size {c : Site} {s t : FlowState} {x y : String}
    (h : c.Rearranges [] s t) (hx : c.function.Owns c.types x) (hy : c.function.Owns c.types y)
    (hxy : x ≠ y) : ∃ (n : Nat) (source : String → Option String),
      FlowState.Rearranges (c.function.Owns c.types) c.location c.function.bindings.size n
        source s t ∧
      (n : Int) < c.function.bindings.size := by
  obtain ⟨n, source, hst, hn⟩ := h
  refine ⟨n, source, hst, Int.ofNat_lt.mpr ?_⟩
  rcases hn with hn | ⟨hn, hbare⟩
  · have htwo : [x, y].length ≤ c.function.bindings.size := by
      apply Function.length_le_size (by simpa using hxy)
      simpa using ⟨hx.mem_names, hy.mem_names⟩
    exact Nat.lt_of_le_of_lt hn htwo
  · obtain ⟨z, hz, hbare⟩ := hbare rfl
    have hthree : [z, x, y].length ≤ c.function.bindings.size := by
      have hzx : z ≠ x := fun h => hbare (h ▸ hx)
      have hzy : z ≠ y := fun h => hbare (h ▸ hy)
      apply Function.length_le_size (by simpa using ⟨⟨hzx, hzy⟩, hxy⟩)
      simpa using ⟨Registry.contains_iff_mem_names.mp hz, hx.mem_names, hy.mem_names⟩
    exact Nat.lt_of_le_of_lt hn hthree

/-- A parameter has no lifetime if it is no reference. -/
theorem Lifetime.ofParam?_eq_none_iff {types : TypeTable} {p : Param} :
    Lifetime.ofParam? types p = .ok none ↔ ∃ d, types.fetch p.type = .ok d ∧ d.isRef = false := by
  constructor
  · intro h
    obtain ⟨d, hd, h⟩ := Except.bind_inv h
    refine ⟨d, hd, ?_⟩
    cases d with
    | ref inner exclusive tag =>
      cases tag with
      | none => cases h
      | some tag => dsimp only at h; split at h <;> cases h
    | _ => rfl
  · rintro ⟨d, hd, href⟩
    refine (Except.bind_of_ok hd).trans ?_
    cases d with
    | ref => cases href
    | _ => rfl

namespace Checker
open FlowState (Keeps)

variable {k : Checker} {f : Function} {r : Regions} {a : Analysis} {s t : FlowState}
    {es : List Event} {l : String}

/-- What operations keep, as they rearrange owners one after the other, holds when the block has
been run. -/
theorem applyFrom_rearranged {Q : Int → FlowState → Prop} {b : Block}
    (hfit : b.Fits f k.types (k.signaturesFor f)) {n : Int} (rest : List Instruction)
    (hrest : ∀ i ∈ rest, i ∈ b.body)
    (hstep : ∀ m span s t, ∀ e ∈ es, (k.site f r b m span).Rearranges e.violations s t → Q m s →
      Q (m + 1) t)
    (hkeeps : ∀ m s t, Keeps (f.Owns k.types) s t → Q m s → Q m t)
    (hrun : (k.applyFrom f r b n rest).run s = .ok es t) (hs : Q n s) : Q (n + rest.length) t := by
  induction rest generalizing n s es with
  | nil =>
    obtain ⟨e, he, -⟩ := applyFrom_nil_iff.mp hrun
    obtain ⟨vs, u, hterm, -, rfl⟩ := applyEnding_iff.mp he
    have hu : Keeps (f.Owns k.types) s u := applyTerminator_keeps hterm
    rw [List.length_nil, Int.ofNat_zero, Int.add_zero]
    exact hkeeps n s _ (hu.trans (.keepLoans u _)) hs
  | cons i rest ih =>
    obtain ⟨hi, hrest⟩ := List.forall_mem_cons.mp hrest
    obtain ⟨e, u, es', he, hrun, rfl⟩ := applyFrom_cons_iff.mp hrun
    obtain ⟨vs, w, hop, rfl, rfl⟩ := applyInstruction_iff.mp he
    have hrearranges : (k.site f r b n i.span).Rearranges vs s w :=
      applyOp_rearranges (hfit.body i hi) hop
    have hw := hstep n i.span s w _ List.mem_cons_self hrearranges hs
    rw [index_cons]
    exact ih hrest (fun m span s t e he => hstep m span s t e (List.mem_cons_of_mem _ he)) hrun
      (hkeeps (n + 1) w _ (.keepLoans w _) hw)

theorem transferBlock_consistent (hf : f.Fits k.types (k.signaturesFor f))
    (hs : s.Consistent (f.Owns k.types) f.bindings.size)
    (hrun : k.transferBlock f r l s = .ok (t, es)) :
    t.Consistent (f.Owns k.types) f.bindings.size := by
  have hlimit : ∀ x, f.Owns k.types x → (0 : Int) < f.bindings.size := fun _ =>
    Function.Owns.limit_pos
  obtain ⟨b, hb, hrun⟩ := transferBlock_iff.mp hrun
  refine applyFrom_rearranged (Q := fun _ s => s.Consistent (f.Owns k.types) f.bindings.size)
    (hf.blocks b (Registry.mem_of_get?_eq_some hb)) b.body (fun _ h => h) ?_ ?_ hrun hs
  · rintro m span s t e - ⟨n, source, hst, -⟩ hs
    exact hs.rearranges hst hlimit
  · intro m s t hst hs
    exact hs.rearranges (hst.rearranges ⟨f.name, l, m⟩ _) hlimit

theorem transferBlock_young (hf : f.Fits k.types (k.signaturesFor f)) {x y : String}
    (hx : f.Owns k.types x) (hy : f.Owns k.types y) (hxy : x ≠ y) {path : List String}
    (hl : l ∉ path) (hs : s.Young (f.Owns k.types) f.bindings.size fun p => p.block ∈ path)
    (hrun : k.transferBlock f r l s = .ok (t, es)) (hclean : Event.found es = []) :
    t.Young (f.Owns k.types) f.bindings.size fun p => p.block ∈ l :: path := by
  obtain ⟨b, hb, hrun⟩ := transferBlock_iff.mp hrun
  have hlabel : b.label = l := Registry.name_of_get?_eq_some hb
  have hnew := applyFrom_rearranged
    (Q := fun n s => s.Young (f.Owns k.types) f.bindings.size fun p => p.block ∈ path ∨
      p.block = l ∧ p.index < n)
    (hf.blocks b (Registry.mem_of_get?_eq_some hb)) b.body (fun _ h => h) ?_ ?_ hrun
      (hs.weaken fun _ => Or.inl)
  · refine hnew.weaken fun p hp => ?_
    rcases hp with hp | ⟨hp, -⟩
    · exact List.mem_cons_of_mem l hp
    · exact List.mem_cons.mpr (Or.inl hp)
  · intro m span s t e he hst hs
    rw [Event.found_eq_nil.mp hclean e he] at hst
    obtain ⟨n, source, hst, hn⟩ := hst.lt_size hx hy hxy
    refine hs.rearranges hst hn ?_ (fun p hp => ?_) (Or.inr ⟨hlabel, Int.lt_succ m⟩)
    · rintro (hp | ⟨-, hp⟩)
      · exact hl (hlabel ▸ hp)
      · exact absurd hp (Int.lt_irrefl m)
    · exact hp.imp_right fun hp => ⟨hp.1, Int.lt_trans hp.2 (Int.lt_succ m)⟩
  · intro m s t hst hs z hz
    obtain ⟨q, hq, hyoung⟩ := hs z (hst.holders z hz)
    exact ⟨q, hst.same z hz ▸ hq, hyoung⟩

section Entry

def paramResource (f : Function) (x : String) : Resource :=
  { origin := ⟨f.name, "<param>", (f.signature.params.map Param.name).idxOf x⟩ }

structure Entered (k : Checker) (f : Function) (s : FlowState) : Prop where
  named : ∀ x, s.stateOf x = .owned → x ∈ f.signature.params.map Param.name
  held : ∀ x, s.Holder (f.Owns k.types) x → ∀ q, q ∈ s.held x ↔ q = paramResource f x
  bare : ∀ x, ¬f.Owns k.types x → ∀ q, q ∉ s.held x

theorem Entered.add {p : Param} (hs : k.Entered f s) (hp : p ∈ f.signature.params)
    (hstate : ∀ x, t.stateOf x = if p.name = x then .owned else s.stateOf x)
    (hown : f.Owns k.types p.name → ∀ q, q ∈ t.held p.name ↔ q = paramResource f p.name)
    (hother : ∀ x, ¬(p.name = x ∧ f.Owns k.types x) → t.held x = s.held x) : k.Entered f t where
  named x hx := by
    rw [hstate] at hx
    split at hx
    · rename_i heq
      exact heq ▸ List.mem_map_of_mem hp
    · exact hs.named x hx
  held x hx q := by
    by_cases heq : p.name = x
    · subst heq
      exact hown hx.1 q
    · rw [FlowState.Holder, hstate, if_neg heq] at hx
      rw [hother x fun h => heq h.1]
      exact hs.held x hx q
  bare x hx q := by
    rw [hother x fun h => hx h.2]
    exact hs.bare x hx q

/-- A parameter owns something if it has no lifetime and its values may not be duplicated. -/
theorem owns_param_iff (ht : f.ParamsTyped) {p : Param} (hp : p ∈ f.signature.params) :
    f.Owns k.types p.name ↔ Lifetime.ofParam? k.types p = .ok none ∧
    k.types.isDuplicable p.type = .ok false := by
  obtain ⟨b, hb⟩ := Registry.contains_iff_get?.mp (f.params_bound p hp)
  have htype := ht p hp b hb
  constructor
  · rintro ⟨b', d, hb', hd, href, hdup⟩
    cases hb.symm.trans hb'
    rw [htype] at hd hdup
    exact ⟨Lifetime.ofParam?_eq_none_iff.mpr ⟨d, hd, href⟩, hdup⟩
  · rintro ⟨hlt, hdup⟩
    obtain ⟨d, hd, href⟩ := Lifetime.ofParam?_eq_none_iff.mp hlt
    exact ⟨b, d, hb, htype ▸ hd, href, htype ▸ hdup⟩

theorem bindParam_entered (ht : f.ParamsTyped) {p : Param} (hp : p ∈ f.signature.params)
    (hs : k.Entered f s) (hrun : k.bindParam f s p = .ok t) : k.Entered f t := by
  have howns := owns_param_iff (k := k) ht hp
  -- a parameter that owns nothing comes with nothing
  have hbare : t.resources = s.resources →
      (∀ x, t.stateOf x = if p.name = x then .owned else s.stateOf x) →
      ¬f.Owns k.types p.name → k.Entered f t := by
    intro hres hstate hnot
    exact hs.add hp hstate (fun h => absurd h hnot) fun x _ => FlowState.held_congr hres x
  obtain ⟨lt, hlt, rfl⟩ | ⟨hlt, ⟨hdup, rfl⟩ | ⟨hdup, rfl⟩⟩ := bindParam_inv hrun
  · refine hbare rfl (fun _ => FlowState.stateOf_setState) fun h => ?_
    cases hlt.symm.trans (howns.mp h).1
  · refine hbare rfl (fun _ => FlowState.stateOf_setState) fun h => ?_
    cases hdup.symm.trans (howns.mp h).2
  · refine hs.add hp (fun _ => FlowState.stateOf_setState) (fun _ q => ?_) (fun x hx => ?_)
    · rw [FlowState.mem_held_iff, FlowState.getElem?_setResources, if_pos rfl]
      simp [paramResource, eq_comm (a := q)]
    · have hne : p.name ≠ x := fun heq => hx ⟨heq, heq ▸ howns.mpr ⟨hlt, hdup⟩⟩
      rw [FlowState.held, ExtTreeMap.getD_eq_getD_getElem?,
        FlowState.getElem?_setResources, if_neg hne,
        ← ExtTreeMap.getD_eq_getD_getElem?, FlowState.held]
      rfl

theorem entryState_entered (ht : f.ParamsTyped) (hrun : k.entryState f = .ok s) :
    k.Entered f s := by
  have hnone : ∀ x, ({} : FlowState).stateOf x ≠ .owned := fun x => by simp [FlowState.stateOf]
  refine Except.foldlM_invariant (fun p hp u v => bindParam_entered ht hp)
    ⟨fun x hx => ?_, fun x hx => ?_, fun x _ q hq => ?_⟩ hrun
  · exact absurd hx (hnone x)
  · exact absurd hx.2 (hnone x)
  · obtain ⟨u, hu, -⟩ := FlowState.mem_held_iff.mp hq
    simp at hu

theorem Entered.consistent (h : k.Entered f s) : s.Consistent (f.Owns k.types) f.bindings.size := by
  have hallots : s.Allots (f.Owns k.types) f.bindings.size (paramResource f) := by
    refine ⟨fun x hx => (h.held x hx _).mpr rfl, fun x y hx hy heq => Or.inl ?_,
      fun _ _ => Int.le_refl 0⟩
    have hindex := Int.ofNat_inj.mp (congrArg (fun q : Resource => q.origin.index) heq)
    exact (List.idxOf_inj (h.named x hx.2)).mp hindex
  refine ⟨h.bare, ⟨_, hallots⟩, fun x hx q hq => ⟨_, hallots, ?_⟩⟩
  exact ((h.held x hx q).mp hq).symm

theorem Entered.young (h : k.Entered f s) (done : Location → Prop) :
    s.Young (f.Owns k.types) f.bindings.size done := fun x hx =>
  ⟨_, (h.held x hx _).mpr rfl, hx.1.limit_pos, Or.inr rfl⟩

end Entry

theorem consistent_invariant (hf : f.Fits k.types (k.signaturesFor f)) (ht : f.ParamsTyped) :
    k.Invariant f r fun _ s => s.Consistent (f.Owns k.types) f.bindings.size where
  entry l s _ hs := (entryState_entered ht hs).consistent
  step l s t es m hs hrun _ := by
    have hlimit : ∀ x, f.Owns k.types x → (0 : Int) < f.bindings.size := fun _ =>
      Function.Owns.limit_pos
    have hloans : Keeps (f.Owns k.types) t (enter r t m) := .keepLoans t _
    exact (transferBlock_consistent hf hs hrun).rearranges
      (hloans.rearranges ⟨f.name, m, 0⟩ _) hlimit
  merge l s t hs ht := hs.merge ht

/-- On a path that passes no block twice nothing gets old, and the analysis allows for that. -/
theorem young_of_path (hf : f.Fits k.types (k.signaturesFor f)) (ht : f.ParamsTyped)
    (ha : a.Solves k f r) (hclean : ∀ (l : String) (j t : FlowState) (js : List Event),
      a.inStates[l]? = some j → k.transferBlock f r l j = .ok (t, js) → Event.found js = [])
    {s₀ : FlowState} (hs₀ : k.entryState f = .ok s₀) {x y : String} (hx : f.Owns k.types x)
    (hy : f.Owns k.types y)
    (hxy : x ≠ y) (path : List String) (hpath : f.IsPath (l :: path)) (hnodup : (l :: path).Nodup) :
    ∃ s, a.inStates[l]? = some s ∧ s.Young (f.Owns k.types) f.bindings.size fun p =>
      p.block ∈ path := by
  -- by induction on the path: the blocks before are other ones, so the points of a block are new to
  -- it
  induction path generalizing l with
  | nil =>
    obtain ⟨u, hu, hbelow⟩ := ha.entry l s₀ hpath.2.2.symm hs₀
    exact ⟨u, hu, ((entryState_entered ht hs₀).young _).below
      (FlowState.merge_agrees_iff.mp hbelow)⟩
  | cons m path ih =>
    obtain ⟨hchain, -, hlast⟩ := hpath
    obtain ⟨hedge, hchain⟩ := List.isChain_cons_cons.mp hchain
    rw [List.getLast?_cons_cons] at hlast
    have hnodup' := (List.nodup_cons.mp hnodup).2
    obtain ⟨s, hs, hyoung⟩ := ih ⟨hchain, List.cons_ne_nil m path, hlast⟩ hnodup'
    obtain ⟨t, es, hrun, hout⟩ := ha.result m s hs
    have hyoung := transferBlock_young hf hx hy hxy (List.nodup_cons.mp hnodup').1 hyoung hrun
      (hclean m s t es hs hrun)
    obtain ⟨u, hu, hbelow⟩ := ha.edge m l t hout hedge
    refine ⟨u, hu, FlowState.Young.below ?_ (FlowState.merge_agrees_iff.mp hbelow)⟩
    exact hyoung

/-- A state that the analysis finds is that on entry to a block, or what the block makes of it. -/
theorem found_state_inv (ha : a.Solves k f r)
    (hs : a.inStates[l]? = some s ∨ a.outStates[l]? = some s) :
    ∃ u, a.inStates[l]? = some u ∧ (s = u ∨ ∃ es, k.transferBlock f r l u = .ok (s, es)) := by
  rcases hs with hs | hs
  · exact ⟨s, hs, Or.inl rfl⟩
  · have hout : l ∈ a.outStates := ExtTreeMap.mem_iff_isSome_getElem?.mpr (by rw [hs]; rfl)
    have hin : l ∈ a.inStates := (ha.inStates l).mpr ((ha.outStates l).mp hout)
    obtain ⟨u, hu⟩ := Option.isSome_iff_exists.mp (ExtTreeMap.mem_iff_isSome_getElem?.mp hin)
    obtain ⟨t, es, hrun, ht⟩ := ha.result l u hu
    cases hs.symm.trans ht
    exact ⟨u, hu, Or.inr ⟨es, hrun⟩⟩

/-- The states that the analysis of an accepted function finds before and behind its blocks: each
resource that an owner may hold is its own in a choice that gives none to two owners, and where two
owners may hold one resource, each may hold another instead. -/
theorem owners_told_apart {report : FunctionReport} (hreport : k.checkFunction f = .ok report)
    (hacc : report.accepted = true) (hparams : f.ParamsTyped) (ha : k.analyze f = .ok a)
    (hs : a.inStates[l]? = some s ∨ a.outStates[l]? = some s) :
    (∀ q x, x ∈ s.ownersOf q → ∃ τ, s.Allots (f.Owns k.types) f.bindings.size τ ∧ τ x = q) ∧
    ∀ q x y, x ∈ s.ownersOf q → y ∈ s.ownersOf q → x ≠ y → ∃ q', x ∈ s.ownersOf q' ∧ q' ≠ q := by
  obtain ⟨⟨⟩, hf, hrest⟩ := Except.bind_inv ha
  obtain ⟨order, -, hrest⟩ := Except.bind_inv hrest
  obtain ⟨r, hr, -⟩ := Except.bind_inv hrest
  have hfits := WellFormed.checkFunction_inv hf
  have hsolves := analyze_solves hf hr ha
  obtain ⟨a', ha', hd⟩ := accepted_inv hreport hacc
  cases ha.symm.trans ha'
  have hclean := found_eq_nil_of_accepted hsolves hfits hd
  obtain ⟨-, -, s₀, -, -, -, hs₀, -⟩ := analyze_drained hf hr ha
  obtain ⟨u, hu, hsu⟩ := found_state_inv hsolves hs
  have hconsistent : s.Consistent (f.Owns k.types) f.bindings.size := by
    have hin := analyze_invariant hf hr (consistent_invariant hfits hparams) ha hu
    rcases hsu with rfl | ⟨es, hrun⟩
    · exact hin
    · exact transferBlock_consistent hfits hin hrun
  have hyoung : ∀ x y, f.Owns k.types x → f.Owns k.types y → x ≠ y →
      ∃ done, s.Young (f.Owns k.types) f.bindings.size done := by
    intro x y hx hy hxy
    have hreach : f.Reachable l :=
      (hsolves.inStates l).mp (ExtTreeMap.mem_iff_isSome_getElem?.mpr (by rw [hu]; rfl))
    obtain ⟨path, hpath, hnodup⟩ := hreach.exists_nodup_path
    obtain ⟨u', hu', hyoung⟩ :=
      young_of_path hfits hparams hsolves hclean hs₀ hx hy hxy path hpath hnodup
    cases hu.symm.trans hu'
    rcases hsu with rfl | ⟨es, hrun⟩
    · exact ⟨_, hyoung⟩
    · exact ⟨_, transferBlock_young hfits hx hy hxy (List.nodup_cons.mp hnodup).1 hyoung hrun
        (hclean l u s es hu hrun)⟩
  have hholder : ∀ q x, x ∈ s.ownersOf q → s.Holder (f.Owns k.types) x := fun _ _ =>
    hconsistent.holder
  refine ⟨fun q x hx => ?_, fun q x y hx hy hxy => ?_⟩
  · exact hconsistent.each x (hholder q x hx) q (FlowState.mem_ownersOf.mp hx).1
  · obtain ⟨done, hyoung⟩ := hyoung x y (hholder q x hx).1 (hholder q y hy).1 hxy
    exact hconsistent.exists_other hyoung hx hy hxy

end Checker

namespace Function

def relayed : Function :=
  ofParts "relayed" [{ name := "x", type := 3, mutable := true },
    { name := "y", type := 3, mutable := true }]
    [{ label := "entry", body := [{ op := .init "x" none }],
       ending := some { terminator := .branch "made" "handed" none } },
     { label := "made", body := [{ op := .init "y" none }],
       ending := some { terminator := .jump "meet" } },
     { label := "handed", body := [{ op := .move "y" "x" }, { op := .init "x" none }],
       ending := some { terminator := .jump "meet" } },
     { label := "meet", ending := some { terminator := .ret none } }]

/-- A text is handed to one of two bindings, which come in as numbers. -/
def miscast : Function :=
  [{ label := "entry", body := [{ op := .init "z" none }],
     ending := some { terminator := .branch "left" "right" none } },
   { label := "left", body := [{ op := .move "x" "z" }],
     ending := some { terminator := .jump "meet" } },
   { label := "right", body := [{ op := .move "y" "z" }],
     ending := some { terminator := .jump "meet" } },
   { label := "meet", ending := some { terminator := .ret none } }].foldl addBlock
  ([{ name := "x", type := 3, mutable := true }, { name := "y", type := 3, mutable := true },
    { name := "z", type := 3 }].foldl addBinding
      (ofSignature { name := "miscast",
                     params := [{ name := "x", type := 1 }, { name := "y", type := 1 }] }))

end Function

namespace Checker
variable {k : Checker} {f : Function} {l : String}

theorem relayed_paramsTyped : Function.relayed.ParamsTyped := by
  intro p hp
  have hnone : Function.relayed.signature.params = [] := rfl
  rw [hnone] at hp
  cases hp

theorem accepted_with_state {P : FlowState → Bool} (h : (do
      let report ← k.checkFunction f
      let a ← k.analyze f
      return report.accepted && (a.inStates[l]?).any P : Except Fault Bool) = .ok true) :
    ∃ report a s, k.checkFunction f = .ok report ∧ report.accepted = true ∧ k.analyze f = .ok a ∧
      a.inStates[l]? = some s ∧ P s = true := by
  obtain ⟨report, hreport, h⟩ := Except.bind_inv h
  obtain ⟨a, ha, h⟩ := Except.bind_inv h
  obtain ⟨hacc, hany⟩ := Bool.and_eq_true_iff.mp (Except.ok.inj h)
  obtain ⟨s, hs, hP⟩ := (Option.any_eq_true _ _).mp hany
  exact ⟨report, a, s, hreport, hacc, ha, hs, hP⟩

theorem relayed_owners : ∃ report a s, basic.checkFunction .relayed = .ok report ∧
    report.accepted = true ∧ basic.analyze .relayed = .ok a ∧ a.inStates["meet"]? = some s ∧
    s.ownersOf { origin := ⟨"relayed", "entry", 0⟩ } = ["x", "y"] := by
  obtain ⟨report, a, s, hreport, hacc, ha, hs, hP⟩ :=
    accepted_with_state (k := basic) (f := .relayed) (l := "meet")
      (P := fun s => s.ownersOf { origin := ⟨"relayed", "entry", 0⟩ } == ["x", "y"])
      (by decide +kernel)
  exact ⟨report, a, s, hreport, hacc, ha, hs, eq_of_beq hP⟩

/-- Where the two ways meet each binding may hold the first text, or another. -/
theorem owners_told_apart_relayed : ∃ report a s, basic.checkFunction .relayed = .ok report ∧
    report.accepted = true ∧
    Function.relayed.ParamsTyped ∧ basic.analyze .relayed = .ok a ∧ a.inStates["meet"]? = some s ∧
    (∃ τ, s.Allots (Function.relayed.Owns basic.types) Function.relayed.bindings.size τ ∧
      τ "y" = { origin := ⟨"relayed", "entry", 0⟩ }) ∧
    ∃ q, "x" ∈ s.ownersOf q ∧ q ≠ { origin := ⟨"relayed", "entry", 0⟩ } := by
  obtain ⟨report, a, s, hreport, hacc, ha, hs, howners⟩ := relayed_owners
  obtain ⟨hallots, hother⟩ := owners_told_apart hreport hacc relayed_paramsTyped ha (Or.inl hs)
  have hx : "x" ∈ s.ownersOf { origin := ⟨"relayed", "entry", 0⟩ } := by
    rw [howners]
    decide
  have hy : "y" ∈ s.ownersOf { origin := ⟨"relayed", "entry", 0⟩ } := by
    rw [howners]
    decide
  exact ⟨report, a, s, hreport, hacc, relayed_paramsTyped, ha, hs, hallots _ _ hy,
    hother _ _ _ hx hy (by decide)⟩

/-- One resource may have two owners in a function that is accepted. If the parameters were bindings
of other types, the two might even hold nothing else. -/
theorem relayed_shared :
    (∃ report a s, basic.checkFunction .relayed = .ok report ∧ report.accepted = true ∧
      Function.relayed.ParamsTyped ∧ basic.analyze .relayed = .ok a ∧ a.inStates["meet"]? = some s ∧
      s.ownersOf { origin := ⟨"relayed", "entry", 0⟩ } = ["x", "y"]) ∧
    ∃ report a s, basic.checkFunction .miscast = .ok report ∧ report.accepted = true ∧
      basic.analyze .miscast = .ok a ∧ a.inStates["meet"]? = some s ∧
      s.resources.toList.map (fun e => (e.1, e.2.toList)) =
        [("x", [{ origin := ⟨"miscast", "entry", 0⟩ }]),
          ("y", [{ origin := ⟨"miscast", "entry", 0⟩ }])] ∧
      s.ownersOf { origin := ⟨"miscast", "entry", 0⟩ } = ["x", "y"] := by
  constructor
  · obtain ⟨report, a, s, hreport, hacc, ha, hs, howners⟩ := relayed_owners
    exact ⟨report, a, s, hreport, hacc, relayed_paramsTyped, ha, hs, howners⟩
  · obtain ⟨report, a, s, hreport, hacc, ha, hs, hP⟩ :=
      accepted_with_state (k := basic) (f := .miscast) (l := "meet")
        (P := fun s => decide (s.resources.toList.map (fun e => (e.1, e.2.toList)) =
            [("x", [{ origin := ⟨"miscast", "entry", 0⟩ }]),
              ("y", [{ origin := ⟨"miscast", "entry", 0⟩ }])] ∧
          s.ownersOf { origin := ⟨"miscast", "entry", 0⟩ } = ["x", "y"])) (by decide +kernel)
    obtain ⟨hheld, howners⟩ := of_decide_eq_true hP
    exact ⟨report, a, s, hreport, hacc, ha, hs, hheld, howners⟩

end Checker

end Ownership
