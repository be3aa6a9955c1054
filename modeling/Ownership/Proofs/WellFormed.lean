import Ownership.Check.Transfer
import Ownership.Proofs.Access

/-! # What a well-formed function promises

The facts that the check of a function leaves behind for its analysis: control starts in a block and
stays in blocks, the operations of each block mention names the function has, and calls fit the
signature they call.
-/
namespace Ownership
open Std

theorem Except.forM_eq_ok {α : Type} {g : α → Except Fault Unit} {l : List α} :
    l.forM g = .ok () ↔ ∀ a ∈ l, g a = .ok () := by
  induction l with
  | nil => exact ⟨nofun, fun _ => rfl⟩
  | cons a l ih =>
    change (g a >>= fun _ => l.forM g) = .ok () ↔ _
    rw [List.forall_mem_cons, ← ih]
    constructor
    · intro h
      obtain ⟨_, ha, h⟩ := Except.bind_inv h
      exact ⟨ha, h⟩
    · exact fun h => (Except.bind_of_ok h.1).trans h.2

namespace Registry
variable {α : Type} [Named α] {r : Registry α} {n : String} {a : α}

theorem mem_of_get?_eq_some (h : r.get? n = some a) : a ∈ r.entries := List.mem_of_find?_eq_some h

theorem contains_iff_get? : r.contains n = true ↔ ∃ a, r.get? n = some a := by
  rw [← isSome_get?, Option.isSome_iff_exists]

theorem name_of_get?_eq_some (h : r.get? n = some a) : Named.name a = n := by
  simpa using List.find?_some h

theorem get?_eq_some_iff {n : String} {a : α} :
    r.get? n = some a ↔ a ∈ r.entries ∧ Named.name a = n := by
  constructor
  · exact fun h => ⟨mem_of_get?_eq_some h, name_of_get?_eq_some h⟩
  · rintro ⟨ha, rfl⟩
    exact get?_eq_some_of_mem ha

end Registry

theorem Function.binding_iff {f : Function} {name : String} {b : Binding} :
    f.binding name = .ok b ↔ f.bindings.get? name = some b := by
  unfold binding
  cases f.bindings.get? name <;> simp

theorem Function.block_iff {f : Function} {label : String} {b : Block} :
    f.block label = .ok b ↔ f.blocks.get? label = some b := by
  unfold block
  cases f.blocks.get? label <;> simp

structure Op.Fits (f : Function) (types : TypeTable) (signatures : Registry Signature)
    (op : Op) : Prop where
  uses : ∀ x ∈ op.uses, f.bindings.contains x = true
  defs : ∀ x ∈ op.defs, f.bindings.contains x = true
  ref : ∀ x kind ref, op = .borrow x kind ref →
    ∃ b d, f.bindings.get? ref = some b ∧ types.fetch b.type = .ok d ∧ d.isRef = true
  callee : ∀ c, op = .call c → ∃ s, signatures.get? c.function = some s ∧
    c.args.length = s.params.length ∧ ∀ e ∈ c.lifetimes, ∀ x ∈ e.2, x ∈ c.args
  supported : ∀ name, op ≠ .unsupported name

structure Ending.Fits (f : Function) (e : Ending) : Prop where
  targets : ∀ l ∈ e.terminator.targets, f.blocks.contains l = true
  uses : ∀ x ∈ e.terminator.uses, f.bindings.contains x = true
  supported : ∀ name, e.terminator ≠ .unsupported name

structure Block.Fits (f : Function) (types : TypeTable) (signatures : Registry Signature)
    (b : Block) : Prop where
  body : ∀ i ∈ b.body, i.op.Fits f types signatures
  ending : ∃ e, b.ending = some e ∧ e.Fits f

structure Function.Fits (f : Function) (types : TypeTable)
    (signatures : Registry Signature) : Prop where
  entry : ∃ l b, f.entryLabel = some l ∧ f.blocks.get? l = some b
  params : ∀ p ∈ f.signature.params, ∃ d, types.fetch p.type = .ok d
  returns : ∀ id ∈ f.signature.returns, ∃ d, types.fetch id = .ok d
  blocks : ∀ b ∈ f.blocks.entries, b.Fits f types signatures

namespace WellFormed
variable {f : Function} {types : TypeTable} {signatures : Registry Signature} {location : Location}
    {span : Span}

theorem ensure_eq_ok {condition : Bool} {problem : Malformed} :
    ensure condition problem = .ok () ↔ condition = true := by
  cases condition <;> simp [ensure]

theorem checkName_eq_ok {name : String} :
    checkName f location span name = .ok () ↔ f.bindings.contains name = true := ensure_eq_ok

theorem checkCall_inv {c : Call} (h : checkCall f signatures location span c = .ok ()) :
    (∃ s, signatures.get? c.function = some s ∧ c.args.length = s.params.length ∧
      ∀ e ∈ c.lifetimes, ∀ x ∈ e.2, x ∈ c.args) ∧
    (∀ x ∈ c.args, f.bindings.contains x = true) ∧
      ∀ x ∈ c.dest.toList, f.bindings.contains x = true := by
  unfold checkCall at h
  cases hs : signatures.get? c.function with
  | none => rw [hs] at h; cases h
  | some s =>
    rw [hs] at h
    obtain ⟨_, hlen, h⟩ := Except.bind_inv h
    obtain ⟨_, hargs, h⟩ := Except.bind_inv h
    obtain ⟨_, hdest, hlts⟩ := Except.bind_inv h
    refine ⟨⟨s, rfl, by simpa using ensure_eq_ok.mp hlen, ?_⟩, ?_, ?_⟩
    · intro e he x hx
      obtain ⟨_, -, hnames⟩ := Except.bind_inv (Except.forM_eq_ok.mp hlts e he)
      simpa using ensure_eq_ok.mp (Except.forM_eq_ok.mp hnames x hx)
    · exact fun x hx => checkName_eq_ok.mp (Except.forM_eq_ok.mp hargs x hx)
    · exact fun x hx => checkName_eq_ok.mp (Except.forM_eq_ok.mp hdest x hx)

theorem checkOp_inv {op : Op} (h : checkOp f types signatures location span op = .ok ()) :
    op.Fits f types signatures := by
  cases op with
  | declare x =>
    have hx := checkName_eq_ok.mp h
    exact ⟨by simp [Op.uses], by simpa [Op.defs, Op.defined?] using hx, nofun, nofun, nofun⟩
  | init x source =>
    obtain ⟨_, hx, hs⟩ := Except.bind_inv h
    refine ⟨fun y hy => checkName_eq_ok.mp (Except.forM_eq_ok.mp hs y hy), ?_, nofun, nofun, nofun⟩
    simpa [Op.defs, Op.defined?] using checkName_eq_ok.mp hx
  | move dest source =>
    obtain ⟨_, hd, hs⟩ := Except.bind_inv h
    exact ⟨by simpa [Op.uses] using checkName_eq_ok.mp hs,
      by simpa [Op.defs, Op.defined?] using checkName_eq_ok.mp hd, nofun, nofun, nofun⟩
  | copy dest source =>
    obtain ⟨_, hd, hs⟩ := Except.bind_inv h
    exact ⟨by simpa [Op.uses] using checkName_eq_ok.mp hs,
      by simpa [Op.defs, Op.defined?] using checkName_eq_ok.mp hd, nofun, nofun, nofun⟩
  | borrow x kind ref =>
    obtain ⟨_, hx, h⟩ := Except.bind_inv h
    cases hb : f.bindings.get? ref with
    | none => rw [hb] at h; cases h
    | some b =>
      rw [hb] at h
      obtain ⟨d, hd, h⟩ := Except.bind_inv h
      refine ⟨by simpa [Op.uses] using checkName_eq_ok.mp hx, ?_, ?_, nofun, nofun⟩
      · simp [Op.defs, Op.defined?, Registry.contains_iff_get?, hb]
      · rintro _ _ _ ⟨⟩
        exact ⟨b, d, hb, hd, ensure_eq_ok.mp h⟩
  | use x =>
    exact ⟨by simpa [Op.uses] using checkName_eq_ok.mp h, by simp [Op.defs, Op.defined?], nofun,
      nofun, nofun⟩
  | write target value =>
    obtain ⟨_, ht, hv⟩ := Except.bind_inv h
    refine ⟨?_, by simp [Op.defs, Op.defined?], nofun, nofun, nofun⟩
    intro y hy
    rcases List.mem_cons.mp hy with rfl | hy
    · exact checkName_eq_ok.mp ht
    · exact checkName_eq_ok.mp (Except.forM_eq_ok.mp hv y hy)
  | call c =>
    obtain ⟨hs, hargs, hdest⟩ := checkCall_inv h
    refine ⟨hargs, hdest, nofun, ?_, nofun⟩
    rintro _ ⟨⟩
    exact hs
  | endScope scope => exact ⟨by simp [Op.uses], by simp [Op.defs, Op.defined?], nofun, nofun, nofun⟩
  | unsupported name => cases h

theorem checkBody_inv {label : String} {n : Int} {body : List Instruction}
    (h : checkBody f types signatures label n body = .ok ()) :
    ∀ i ∈ body, i.op.Fits f types signatures := by
  induction body generalizing n with
  | nil => simp
  | cons i rest ih =>
    obtain ⟨_, hi, hrest⟩ := Except.bind_inv h
    exact List.forall_mem_cons.mpr ⟨checkOp_inv hi, ih hrest⟩

theorem checkEnding_inv {label : String} {ending : Option Ending}
    (h : checkEnding f label location ending = .ok ()) : ∃ e, ending = some e ∧ e.Fits f := by
  cases ending with
  | none => cases h
  | some e =>
    obtain ⟨t, espan⟩ := e
    refine ⟨_, rfl, ?_⟩
    cases t with
    | unsupported name => cases h
    | _ =>
      obtain ⟨_, ht, hu⟩ := Except.bind_inv h
      exact ⟨fun l hl => ensure_eq_ok.mp (Except.forM_eq_ok.mp ht l hl),
        fun x hx => checkName_eq_ok.mp (Except.forM_eq_ok.mp hu x hx), nofun⟩

theorem checkBlock_inv {b : Block} (h : checkBlock f types signatures b = .ok ()) :
    b.Fits f types signatures := by
  obtain ⟨_, hbody, hend⟩ := Except.bind_inv h
  exact ⟨checkBody_inv hbody, checkEnding_inv hend⟩

theorem checkEntry_inv (h : checkEntry f = .ok ()) :
    ∃ l b, f.entryLabel = some l ∧ f.blocks.get? l = some b := by
  unfold checkEntry at h
  cases hl : f.entryLabel with
  | none => rw [hl] at h; cases h
  | some l =>
    rw [hl] at h
    obtain ⟨_, -, h⟩ := Except.bind_inv h
    obtain ⟨b, hb⟩ := Registry.contains_iff_get?.mp (ensure_eq_ok.mp h)
    exact ⟨l, b, rfl, hb⟩

theorem lifetimeOf_inv {id : TypeId} {lt : Option String} (h : lifetimeOf types id = .ok lt) :
    ∃ d, types.fetch id = .ok d := by
  obtain ⟨d, hd, -⟩ := Except.bind_inv h
  exact ⟨d, hd⟩

theorem checkParams_inv {s : Signature} {ps : List Param} {seen lts : List String}
    (h : checkParams types s ps seen = .ok lts) : ∀ p ∈ ps, ∃ d, types.fetch p.type = .ok d := by
  induction ps generalizing seen lts with
  | nil => simp
  | cons p ps ih =>
    obtain ⟨_, -, h⟩ := Except.bind_inv h
    obtain ⟨lt, hlt, h⟩ := Except.bind_inv h
    refine List.forall_mem_cons.mpr ⟨lifetimeOf_inv hlt, ?_⟩
    cases lt with
    | none => exact ih h
    | some lt =>
      obtain ⟨_, -, h⟩ := Except.bind_inv h
      obtain ⟨rest, hrest, -⟩ := Except.bind_inv h
      exact ih hrest

theorem checkFunction_eq_ok :
    checkFunction f types signatures = .ok () ↔ checkSignature types f.signature = .ok () ∧
    checkEntry f = .ok () ∧ (∀ s ∈ f.scopes.entries, checkScope f s = .ok ()) ∧
    (∀ b ∈ f.bindings.entries, checkBinding f b = .ok ()) ∧
    ∀ b ∈ f.blocks.entries, checkBlock f types signatures b = .ok () := by
  rw [← Except.forM_eq_ok, ← Except.forM_eq_ok, ← Except.forM_eq_ok]
  constructor
  · intro h
    obtain ⟨_, hsignature, h⟩ := Except.bind_inv h
    obtain ⟨_, hentry, h⟩ := Except.bind_inv h
    obtain ⟨_, hscopes, h⟩ := Except.bind_inv h
    obtain ⟨_, hbindings, hblocks⟩ := Except.bind_inv h
    exact ⟨hsignature, hentry, hscopes, hbindings, hblocks⟩
  · rintro ⟨hsignature, hentry, hscopes, hbindings, hblocks⟩
    rw [checkFunction, Except.bind_of_ok hsignature, Except.bind_of_ok hentry,
      Except.bind_of_ok hscopes, Except.bind_of_ok hbindings, hblocks]

/-- A function that passes the check can be analysed. -/
theorem checkFunction_inv (h : checkFunction f types signatures = .ok ()) :
    f.Fits types signatures := by
  obtain ⟨hsig, hentry, -, -, hblocks⟩ := checkFunction_eq_ok.mp h
  obtain ⟨_, -, hsig⟩ := Except.bind_inv hsig
  obtain ⟨lts, hparams, hret⟩ := Except.bind_inv hsig
  refine ⟨checkEntry_inv hentry, checkParams_inv hparams, ?_, ?_⟩
  · intro id hid
    rw [Option.mem_def.mp hid] at hret
    obtain ⟨lt, hlt, -⟩ := Except.bind_inv hret
    exact lifetimeOf_inv hlt
  · exact fun b hb => checkBlock_inv (hblocks b hb)

end WellFormed

namespace Function
variable {f : Function} {types : TypeTable} {signatures : Registry Signature}
    {label : String} {b : Block}

theorem Fits.block (hf : f.Fits types signatures) (hb : f.blocks.get? label = some b) :
    b.Fits f types signatures :=
  hf.blocks b (Registry.mem_of_get?_eq_some hb)

/-- Control stays in blocks of the function. -/
theorem Fits.successor (hf : f.Fits types signatures) (hb : f.blocks.get? label = some b)
    {next : String} (hn : next ∈ b.successors) : ∃ b', f.blocks.get? next = some b' := by
  obtain ⟨e, he, hfit⟩ := (hf.block hb).ending
  rw [Block.successors, he] at hn
  exact Registry.contains_iff_get?.mp (hfit.targets next hn)

end Function

end Ownership
