import Ownership.Proofs.FlowState

/-! # The order of flow states and their join

One flow state is below another when the other allows for everything the first knows: no binding is
in a better state there, and no loan, lifetime or resource is missing. Merging gives the least state
above both sides, and a block learns nothing from an incoming state exactly when that state is below
what is known there.
-/
namespace Ownership
open Std

section Tables
variable {α : Type} [Ord α] [TransOrd α]

def Included (a b : NameMap (ExtTreeSet α)) : Prop :=
  ∀ (x : String) (u : ExtTreeSet α), a[x]? = some u → ∃ v, b[x]? = some v ∧ ∀ y ∈ u, y ∈ v

theorem Included.refl (a : NameMap (ExtTreeSet α)) : Included a a := fun _ u h =>
    ⟨u, h, fun _ hy => hy⟩

theorem Included.trans {a b c : NameMap (ExtTreeSet α)} (hab : Included a b) (hbc : Included b c) :
    Included a c := by
  intro x u hu
  obtain ⟨v, hv, huv⟩ := hab x u hu
  obtain ⟨w, hw, hvw⟩ := hbc x v hv
  exact ⟨w, hw, fun y hy => hvw y (huv y hy)⟩

theorem Included.antisymm [LawfulEqOrd α] {a b : NameMap (ExtTreeSet α)} (hab : Included a b)
    (hba : Included b a) : a = b := by
  apply ExtTreeMap.ext_getElem?
  intro x
  cases ha : a[x]? with
  | none =>
    cases hb : b[x]? with
    | none => rfl
    | some v =>
      obtain ⟨u, hu, _⟩ := hba x v hb
      rw [ha] at hu
      cases hu
  | some u =>
    obtain ⟨v, hv, huv⟩ := hab x u ha
    obtain ⟨w, hw, hvw⟩ := hba x v hv
    rw [ha] at hw
    cases hw
    rw [hv]
    congr 1
    apply ExtTreeSet.ext_mem
    exact fun y => ⟨huv y, hvw y⟩

end Tables

namespace FlowState

section Unite
variable {β : Type} (join : β → β → β)

def takeIn (t : NameMap β) (e : String × β) : NameMap β :=
  t.insert e.1 (match t[e.1]? with | some x => join x e.2 | none => e.2)

theorem getElem?_foldl_takeIn_of_ne (l : List (String × β)) (t : NameMap β) {x : String}
    (hx : ∀ e ∈ l, e.1 ≠ x) : (l.foldl (takeIn join) t)[x]? = t[x]? := by
  induction l generalizing t with
  | nil => rfl
  | cons e l ih =>
    rw [List.foldl_cons, ih _ fun e' he' => hx e' (List.mem_cons_of_mem _ he'), takeIn,
      ExtTreeMap.getElem?_insert, if_neg]
    simpa using hx e List.mem_cons_self

theorem getElem?_foldl_takeIn (l : List (String × β)) (hl : (l.map Prod.fst).Nodup) (t : NameMap β)
    {x : String} {v : β} (hv : (x, v) ∈ l) :
    (l.foldl (takeIn join) t)[x]? = some (match t[x]? with | some u => join u v | none => v) := by
  induction l generalizing t with
  | nil => cases hv
  | cons e l ih =>
    obtain ⟨hnotin, hl⟩ := List.nodup_cons.mp hl
    rw [List.foldl_cons]
    rcases List.mem_cons.mp hv with rfl | hv
    · have hne : ∀ e ∈ l, e.1 ≠ x := fun e he h => hnotin (List.mem_map.mpr ⟨e, he, h⟩)
      rw [getElem?_foldl_takeIn_of_ne join l _ hne, takeIn, ExtTreeMap.getElem?_insert_self]
    · have hne : e.1 ≠ x := fun h => hnotin (List.mem_map.mpr ⟨(x, v), hv, h.symm⟩)
      rw [ih hl _ hv, takeIn, ExtTreeMap.getElem?_insert, if_neg (by simpa using hne)]

theorem unite_eq_foldl (a b : NameMap β) : unite join a b = b.toList.foldl (takeIn join) a := rfl

theorem getElem?_unite_of_none (a b : NameMap β) {x : String} (hx : b[x]? = none) :
    (unite join a b)[x]? = a[x]? := by
  rw [unite_eq_foldl, getElem?_foldl_takeIn_of_ne]
  intro e he hex
  have hm := ExtTreeMap.mem_toList_iff_getElem?_eq_some.mp (show (e.1, e.2) ∈ b.toList from he)
  rw [hex, hx] at hm
  cases hm

theorem getElem?_unite_of_some (a b : NameMap β) {x : String} {v : β} (hx : b[x]? = some v) :
    (unite join a b)[x]? = some (match a[x]? with | some u => join u v | none => v) := by
  rw [unite_eq_foldl]
  apply getElem?_foldl_takeIn
  · rw [ExtTreeMap.map_fst_toList_eq_keys]
    exact ExtTreeMap.nodup_keys
  · exact ExtTreeMap.mem_toList_iff_getElem?_eq_some.mpr hx

end Unite

section Union
variable {α : Type} [Ord α] [TransOrd α] (a b : NameMap (ExtTreeSet α))

theorem included_unite_left : Included a (unite (·.union ·) a b) := by
  intro x u hu
  cases hb : b[x]? with
  | none => exact ⟨u, by rw [getElem?_unite_of_none _ _ _ hb, hu], fun _ hy => hy⟩
  | some v =>
    refine ⟨u.union v, by rw [getElem?_unite_of_some _ _ _ hb, hu], fun y hy => ?_⟩
    exact ExtTreeSet.mem_union_iff.mpr (Or.inl hy)

theorem included_unite_right : Included b (unite (·.union ·) a b) := by
  intro x v hv
  rw [getElem?_unite_of_some _ _ _ hv]
  cases a[x]? with
  | none => exact ⟨v, rfl, fun _ hy => hy⟩
  | some u => exact ⟨u.union v, rfl, fun y hy => ExtTreeSet.mem_union_iff.mpr (Or.inr hy)⟩

variable {a b}

theorem unite_included {c : NameMap (ExtTreeSet α)} (hac : Included a c) (hbc : Included b c) :
    Included (unite (·.union ·) a b) c := by
  intro x u hu
  cases hb : b[x]? with
  | none =>
    rw [getElem?_unite_of_none _ _ _ hb] at hu
    exact hac x u hu
  | some v =>
    rw [getElem?_unite_of_some _ _ _ hb] at hu
    obtain ⟨w, hw, hvw⟩ := hbc x v hb
    cases ha : a[x]? with
    | none =>
      rw [ha] at hu
      cases hu
      exact ⟨w, hw, hvw⟩
    | some u' =>
      rw [ha] at hu
      cases hu
      obtain ⟨w', hw', huw⟩ := hac x u' ha
      rw [hw] at hw'
      cases hw'
      refine ⟨w, hw, fun y hy => ?_⟩
      rcases ExtTreeSet.mem_union_iff.mp hy with hy | hy
      · exact huw y hy
      · exact hvw y hy

end Union

section States
variable (a b : FlowState)

theorem getElem?_foldl_insert {β : Type} (g : String → β) (l : List String) (t : NameMap β)
    (x : String) :
    (l.foldl (fun t name => t.insert name (g name)) t)[x]? = if x ∈ l then some (g x)
      else t[x]? := by
  induction l generalizing t with
  | nil => simp
  | cons y l ih =>
    rw [List.foldl_cons, ih, ExtTreeMap.getElem?_insert]
    by_cases hx : x ∈ l
    · simp [hx]
    · by_cases hy : y = x
      · subst hy; simp [hx]
      · simp [hx, hy, Ne.symm hy]

theorem getElem?_meetStates (x : String) : (meetStates a b)[x]? =
    if x ∈ a.states ∨ x ∈ b.states then some ((a.stateOf x).meet (b.stateOf x)) else none := by
  rw [meetStates, getElem?_foldl_insert]
  simp

theorem mem_states_merge {x : String} : x ∈ (a.merge b).states ↔ x ∈ a.states ∨ x ∈ b.states := by
  rw [ExtTreeMap.mem_iff_isSome_getElem?]
  change (meetStates a b)[x]?.isSome = true ↔ _
  rw [getElem?_meetStates]
  split <;> simp_all

theorem stateOf_of_not_mem {s : FlowState} {x : String} (h : x ∉ s.states) :
    s.stateOf x = .uninitialized :=
  ExtTreeMap.getD_eq_fallback h

@[simp] theorem stateOf_merge (x : String) :
    (a.merge b).stateOf x = (a.stateOf x).meet (b.stateOf x) := by
  rw [stateOf, ExtTreeMap.getD_eq_getD_getElem?]
  change ((meetStates a b)[x]?).getD _ = _
  rw [getElem?_meetStates]
  split
  · rfl
  · rename_i h
    rw [not_or] at h
    rw [stateOf_of_not_mem h.1, stateOf_of_not_mem h.2]
    rfl

end States

/-- Everything the first state knows is allowed for in the second. -/
structure Below (s t : FlowState) : Prop where
  known : ∀ x ∈ s.states, x ∈ t.states
  states : ∀ x, (t.stateOf x).rank ≤ (s.stateOf x).rank
  loans : ∀ l ∈ s.loans, l ∈ t.loans
  provenance : Included s.provenance t.provenance
  resources : Included s.resources t.resources

namespace Below
variable {s t u : FlowState}

theorem refl (s : FlowState) : Below s s :=
  ⟨fun _ h => h, fun _ => Nat.le_refl _, fun _ h => h, .refl _, .refl _⟩

theorem trans (hst : Below s t) (htu : Below t u) : Below s u where
  known x hx := htu.known x (hst.known x hx)
  states x := Nat.le_trans (htu.states x) (hst.states x)
  loans l hl := htu.loans l (hst.loans l hl)
  provenance := hst.provenance.trans htu.provenance
  resources := hst.resources.trans htu.resources

theorem merge_left (s t : FlowState) : Below s (s.merge t) where
  known x hx := (mem_states_merge s t).mpr (Or.inl hx)
  states x := by rw [stateOf_merge, OwnershipState.rank_meet]; omega
  loans l hl := Loans.mem_join.mpr (Or.inl hl)
  provenance := included_unite_left _ _
  resources := included_unite_left _ _

theorem merge_right (s t : FlowState) : Below t (s.merge t) where
  known x hx := (mem_states_merge s t).mpr (Or.inr hx)
  states x := by rw [stateOf_merge, OwnershipState.rank_meet]; omega
  loans l hl := Loans.mem_join.mpr (Or.inr hl)
  provenance := included_unite_right _ _
  resources := included_unite_right _ _

/-- Merging gives the least state above both sides. -/
theorem merge_least (hs : Below s u) (ht : Below t u) : Below (s.merge t) u where
  known x hx := ((mem_states_merge s t).mp hx).elim (hs.known x) (ht.known x)
  states x := by
    have h₁ := hs.states x
    have h₂ := ht.states x
    rw [stateOf_merge, OwnershipState.rank_meet]
    omega
  loans l hl := (Loans.mem_join.mp hl).elim (hs.loans l) (ht.loans l)
  provenance := unite_included hs.provenance ht.provenance
  resources := unite_included hs.resources ht.resources

end Below

theorem states_eq_of_below {s t : FlowState} (hst : Below s t) (hts : Below t s) :
    s.states = t.states := by
  apply ExtTreeMap.ext_getElem?
  intro x
  by_cases hx : x ∈ s.states
  · have hx' := hst.known x hx
    rw [ExtTreeMap.getElem?_eq_some_getD hx, ExtTreeMap.getElem?_eq_some_getD hx']
    exact congrArg some (OwnershipState.rank_injective
      (Nat.le_antisymm (hts.states x) (hst.states x)))
  · have hx' : x ∉ t.states := fun h => hx (hts.known x h)
    rw [ExtTreeMap.getElem?_eq_none hx, ExtTreeMap.getElem?_eq_none hx']

/-- Two states agree when each is below the other. -/
theorem agrees_iff {s t : FlowState} : s.agrees t = true ↔ Below s t ∧ Below t s := by
  constructor
  · intro h
    simp only [agrees, Bool.and_eq_true, beq_iff_eq] at h
    obtain ⟨⟨⟨hs, hl⟩, hp⟩, hr⟩ := h
    have hloans : ∀ l, l ∈ s.loans ↔ l ∈ t.loans := fun l => by
      rw [← ExtTreeMap.mem_keys, ← ExtTreeMap.mem_keys, hl]
    have hstates : ∀ x, s.stateOf x = t.stateOf x := stateOf_congr hs
    constructor
    · exact ⟨fun x hx => hs ▸ hx, fun x => (hstates x) ▸ Nat.le_refl _, fun l => (hloans l).mp,
        hp ▸ .refl _, hr ▸ .refl _⟩
    · exact ⟨fun x hx => hs ▸ hx, fun x => (hstates x) ▸ Nat.le_refl _, fun l => (hloans l).mpr,
        hp ▸ .refl _, hr ▸ .refl _⟩
  · rintro ⟨hst, hts⟩
    have hl := Loans.keys_eq_of_mem_iff fun l => ⟨hst.loans l, hts.loans l⟩
    simp only [agrees, Bool.and_eq_true, beq_iff_eq]
    exact ⟨⟨⟨states_eq_of_below hst hts, hl⟩, hst.provenance.antisymm hts.provenance⟩,
      hst.resources.antisymm hts.resources⟩

/-- A state learns nothing from another exactly when that other is below it. -/
theorem merge_agrees_iff {s t : FlowState} : (t.merge s).agrees t = true ↔ Below s t := by
  rw [agrees_iff]
  constructor
  · exact fun h => (Below.merge_right t s).trans h.1
  · exact fun h => ⟨Below.merge_least (.refl t) h, .merge_left t s⟩

section Laws
variable {a b c : FlowState}

theorem merge_below_iff : Below (a.merge b) c ↔ Below a c ∧ Below b c :=
  ⟨fun h => ⟨(Below.merge_left a b).trans h, (Below.merge_right a b).trans h⟩,
    fun h => .merge_least h.1 h.2⟩

/-- States with the same states above them agree. -/
theorem agrees_of_below_iff (h : ∀ c, Below a c ↔ Below b c) : a.agrees b = true :=
  agrees_iff.mpr ⟨(h b).mpr (.refl b), (h a).mp (.refl a)⟩

theorem below_iff_of_agrees (h : a.agrees b = true) (c : FlowState) : Below a c ↔ Below b c := by
  obtain ⟨hab, hba⟩ := agrees_iff.mp h
  exact ⟨hba.trans, hab.trans⟩

/-- What a state becomes by merging others into it, or it into others, again and again. -/
inductive Grown (s : FlowState) : FlowState → Prop
  | start : Grown s s
  | left {t : FlowState} (h : Grown s t) (u : FlowState) : Grown s (t.merge u)
  | right {t : FlowState} (u : FlowState) (h : Grown s t) : Grown s (u.merge t)

theorem below_of_grown {s t : FlowState} (h : Grown s t) : Below s t := by
  induction h with
  | start => exact .refl s
  | left _ u ih => exact ih.trans (.merge_left _ u)
  | right u _ ih => exact ih.trans (.merge_right u _)

end Laws

/-- Merging is a join. Up to where borrows are written it is commutative, associative and idempotent
and depends on nothing else, it is the least bound in an order whose equality is agreement, and what
has been taken in stays taken in. -/
theorem merge_join (a b c : FlowState) :
    (a.merge b).agrees (b.merge a) = true ∧
    ((a.merge b).merge c).agrees (a.merge (b.merge c)) = true ∧
    (a.merge a).agrees a = true ∧
    (∀ a' b', a.agrees a' = true → b.agrees b' = true → (a.merge b).agrees (a'.merge b') = true) ∧
    Below a a ∧ (Below a b → Below b c → Below a c) ∧ (Below a b ∧ Below b a ↔ a.agrees b = true) ∧
    Below a (a.merge b) ∧ Below b (a.merge b) ∧ (Below a c → Below b c → Below (a.merge b) c) ∧
    ((a.merge b).agrees a = true → ∀ t, Grown a t → (t.merge b).agrees t = true) := by
  refine ⟨agrees_of_below_iff fun _ => ?_, agrees_of_below_iff fun _ => ?_,
    agrees_of_below_iff fun _ => ?_, ?_,
    .refl a, .trans, agrees_iff.symm, .merge_left a b, .merge_right a b, .merge_least, ?_⟩
  · rw [merge_below_iff, merge_below_iff, and_comm]
  · rw [merge_below_iff, merge_below_iff, merge_below_iff, merge_below_iff, and_assoc]
  · rw [merge_below_iff, and_self]
  · intro a' b' ha hb
    refine agrees_of_below_iff fun u => ?_
    rw [merge_below_iff, merge_below_iff, below_iff_of_agrees ha u, below_iff_of_agrees hb u]
  · intro habsorbed t hgrown
    exact merge_agrees_iff.mpr ((merge_agrees_iff.mp habsorbed).trans (below_of_grown hgrown))

def lentAt (line : Int) (x : Option OwnershipState) : FlowState :=
  addLoan { states := .ofList (x.toList.map fun state => ("x", state)) }
    ⟨"x", .shared, some "r", ⟨"f", "entry", 0⟩, false⟩ { line := some line }

/-- A state in which the binding is moved takes in one that has not heard of it, and so does what it
is merged into. -/
theorem merge_join_lentAt :
    ((lentAt 1 (some .moved)).merge (lentAt 2 none)).agrees (lentAt 1 (some .moved)) = true ∧
    (((lentAt 3 (some .owned)).merge (lentAt 1 (some .moved))).merge (lentAt 2 none)).agrees
      ((lentAt 3 (some .owned)).merge (lentAt 1 (some .moved))) = true := by
  have habsorbed : ((lentAt 1 (some .moved)).merge (lentAt 2 none)).agrees
      (lentAt 1 (some .moved)) = true := by
    decide +kernel
  obtain ⟨-, -, -, -, -, -, -, -, -, -, hkept⟩ :=
    merge_join (lentAt 1 (some .moved)) (lentAt 2 none) {}
  exact ⟨habsorbed, hkept habsorbed _ (.right _ .start)⟩

end FlowState

end Ownership
