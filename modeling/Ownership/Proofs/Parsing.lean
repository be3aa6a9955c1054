import Ownership.Listing.Build
import Ownership.Proofs.Reading
import Ownership.Proofs.Splitting

/-! # The parser reads its grammar

Each parser reads the rule of its name. The statements and the endings of a block are read together
with the semicolon behind them, since the rules have it.
-/
namespace Ownership.Listing
open Form

namespace Parser

theorem reads_field : field.Reads Syntax.field Syntax.fieldOf :=
  reads_word.next rfl fun _ => (reads_sign _).next rfl fun _ => reads_type.next rfl fun _ =>
    reads_pure _

theorem reads_structItem : structItem.Reads Syntax.structDef Syntax.structOf :=
  (reads_keyword _).next rfl fun _ => reads_word.next rfl fun _ =>
    (reads_accept _).bind (by decide) fun _ =>
      (reads_field.closedTrailing (by decide) (by decide) rfl).next rfl fun _ => reads_pure _

theorem reads_arm : arm.Reads Syntax.arm Syntax.armOf := by
  have hpayload : ∀ w : Tok .name, (do
      sign .openParen
      let payload ← separated .comma type
      sign .closeParen
      return (w.word, payload) : Parser (Word × List TypeExpr)).Reads
      (Syntax.enclosed .openParen (Syntax.separatedBy .comma .type) .closeParen)
      fun x => (w.word, (Syntax.elements x.2.1).map TypeTree.expr) := fun w =>
    (reads_sign _).next rfl fun _ =>
      (reads_type.separated (by decide) rfl).bind (by decide) fun _ =>
        (reads_sign _).next rfl fun _ => reads_pure _
  refine reads_word.next rfl fun w => ((hpayload w).ifNext (w.word, []) rfl rfl).close.congr ?_
  rintro ⟨_ | _, _⟩ <;> rfl

theorem reads_variantItem : variantItem.Reads Syntax.variantDef Syntax.variantOf :=
  (reads_keyword _).next rfl fun _ => reads_word.next rfl fun _ =>
    (reads_arm.closedTrailing (by decide) (by decide) rfl).next rfl fun _ => reads_pure _

theorem reads_lifetimeParam : lifetimeParam.Reads Syntax.lifetimeParam Syntax.lifetimeParamOf := by
  have hbounds : (do sign .colon; separated .plus lifetime : Parser (List String)).Reads
      (row [Syntax.sign .colon, Syntax.separatedBy .plus Syntax.lifetime]) fun x =>
        (Syntax.elements x.2.1).map Tok.text :=
    (reads_sign _).next rfl fun _ => (reads_lifetime.separated (by decide) rfl).close
  have hinner : (do
      let lt ← lifetime
      let bounds ← optional (.sign .colon) do sign .colon; separated .plus lifetime
      return (lt, bounds.getD []) : Parser (String × List String)).Reads Syntax.lifetimeParam
      fun x => (x.1.text, x.2.1.elim [] fun y => (Syntax.elements y.2.1).map Tok.text) := by
    refine reads_lifetime.next rfl fun _ => (hbounds.optional rfl rfl).bind (by decide) fun y => ?_
    cases y <;> exact reads_pure _
  exact hinner.spanned.thenPure fun _ => rfl

theorem reads_generics : generics.Reads (opt Syntax.generics) Syntax.genericsOf := by
  have hparams : (do
      sign .less
      let params ← separated .comma lifetimeParam
      sign .greater
      return params : Parser (List LifetimeExpr)).Reads Syntax.generics
      fun x => (Syntax.elements x.2.1).map Syntax.lifetimeParamOf :=
    (reads_sign _).next rfl fun _ =>
      (reads_lifetimeParam.separated (by decide) rfl).bind (by decide) fun _ =>
        (reads_sign _).next rfl fun _ => reads_pure _
  exact (hparams.ifNext [] rfl rfl).congr fun x => by cases x <;> rfl

theorem reads_param : param.Reads Syntax.param Syntax.paramOf :=
  (reads_accept _).bind (by decide) fun _ => reads_name.next rfl fun _ =>
    (reads_sign _).next rfl fun _ =>
      reads_type.next rfl fun _ => reads_pure _

theorem reads_signature : signature.Reads Syntax.signature Syntax.signatureOf := by
  have hreturns : (do sign .rightArrow; type : Parser TypeExpr).Reads Syntax.returns fun x =>
    x.2.1.expr :=
      (reads_sign _).next rfl fun _ => reads_type.close
  have hinner : (do
      keyword .function
      let f ← name
      let gs ← generics
      let ps ← closed .openParen .closeParen param
      let ret ← optional (.sign .rightArrow) do sign .rightArrow; type
      return (f, gs, ps, ret) : Parser
        (String × List LifetimeExpr × List ParamExpr × Option TypeExpr)).Reads Syntax.signature
      fun x => let y := Syntax.signatureOf x; (y.name, y.generics, y.params, y.returns) :=
    (reads_keyword _).next rfl fun _ => reads_name.next rfl fun _ =>
      reads_generics.bind (by decide) fun _ =>
        (reads_param.closed (by decide) (by decide) rfl).next rfl fun _ =>
          (hreturns.optional rfl rfl).bind (by decide) fun _ =>
        reads_pure _
  exact hinner.spanned.thenPure fun _ => rfl

theorem reads_inside : (do keyword .inside; name : Parser String).Reads
    (row [Syntax.keyword .inside, Syntax.name]) fun x => x.2.1.text :=
  (reads_keyword _).next rfl fun _ => reads_name.close

theorem reads_scope : scope.Reads Syntax.scope Syntax.scopeOf := by
  have hinner : (do
      keyword .scope
      let s ← name
      let parent ← optional (.keyword .inside) do keyword .inside; name
      sign .semicolon
      return (s, parent) : Parser (String × Option String)).Reads Syntax.scope
      fun x => let y := Syntax.scopeOf x; (y.name, y.parent) :=
    (reads_keyword _).next rfl fun _ => reads_name.next rfl fun _ =>
      (reads_inside.optional rfl rfl).bind (by decide) fun _ =>
        (reads_sign _).next rfl fun _ => reads_pure _
  exact hinner.spanned.thenPure fun _ => rfl

theorem reads_source : source.Reads (opt (row [Syntax.sign .equals, Syntax.name]))
    Syntax.sourceOf := by
  have hsource : (do sign .equals; name : Parser String).Reads
      (row [Syntax.sign .equals, Syntax.name]) fun x => x.2.1.text :=
    (reads_sign _).next rfl fun _ => reads_name.close
  exact hsource.optional rfl rfl

theorem reads_lifetimeBinding :
    lifetimeBinding.Reads Syntax.lifetimeBinding Syntax.lifetimeBindingOf :=
  reads_lifetime.next rfl fun _ => (reads_sign _).next rfl fun _ => reads_name.next rfl fun _ =>
    (reads_name.many _ (fun k => by simp [firsts]) (by decide) rfl).bind (by decide) fun _ =>
      reads_pure _

theorem reads_withClause :
    (optional (.keyword .binding) do keyword .binding; separated .comma lifetimeBinding).Reads
      (opt Syntax.withClause) (Option.map fun x =>
        (Syntax.elements x.2.1).map Syntax.lifetimeBindingOf) := by
  have hclause : (do keyword .binding; separated .comma lifetimeBinding :
      Parser (List (String × List String))).Reads
      Syntax.withClause fun x => (Syntax.elements x.2.1).map Syntax.lifetimeBindingOf :=
    (reads_keyword _).next rfl fun _ => (reads_lifetimeBinding.separated (by decide) rfl).close
  exact hclause.optional rfl rfl

def terminated {α : Type} (p : Parser α) : Parser α := do
  let a ← p
  sign .semicolon
  return a

theorem reads_callTo (dest : Option String) :
    (terminated (callTo dest)).Reads Syntax.callOp fun x =>
    .op (.call { function := x.2.1.text, args := Syntax.argsOf x.2.2.1,
                 lifetimes := Syntax.withClauseOf x.2.2.2.1, dest }) := by
  simp only [terminated, callTo, bind_assoc, pure_bind]
  refine (reads_keyword _).next rfl fun _ => reads_name.next rfl fun _ =>
    (reads_name.closed (by decide) (by decide) rfl).next rfl fun _ =>
      reads_withClause.bind (by decide) fun y =>
    (reads_sign _).next rfl fun _ => ?_
  cases y <;> exact reads_pure _

theorem reads_definition : (terminated definition).Reads (alt Syntax.borrowOp Syntax.callDestOp)
    (Sum.elim Syntax.borrowOf Syntax.callDestOf) := by
  have hborrow : ∀ dest : String, (terminated (do
      keyword .borrow
      let exclusive ← accept (.keyword .mutable)
      return .op (.borrow (← name) (if exclusive then .exclusive else .shared) dest) :
        Parser Statement)).Reads
      (row [Syntax.keyword .borrow, opt (Syntax.keyword .mutable), Syntax.name,
        Syntax.sign .semicolon])
      fun x => .op (.borrow x.2.2.1.text (if x.2.1.isSome then .exclusive else .shared) dest) := by
    intro dest
    simp only [terminated, bind_assoc, pure_bind]
    exact (reads_keyword _).next rfl fun _ => (reads_accept _).bind (by decide) fun _ =>
      reads_name.next rfl fun _ =>
        (reads_sign _).next rfl fun _ => reads_pure _
  have hfactored : terminated definition = (do
      let dest ← name
      sign .equals
      if ← nextIs (.keyword .borrow) then terminated (do
        keyword .borrow
        let exclusive ← accept (.keyword .mutable)
        return .op (.borrow (← name) (if exclusive then .exclusive else .shared) dest))
      else terminated (callTo (some dest))) := by
    simp only [terminated, definition, bind_assoc, if_bind]
  rw [hfactored]
  exact Reads.factor (reads_name.next rfl fun dest => Reads.factor ((reads_sign _).next rfl fun _ =>
    (hborrow dest.text).ifNextElse (reads_callTo _) rfl rfl (by decide) rfl))

theorem reads_declaration : (terminated declaration).Reads Syntax.declareOp Syntax.declareOf := by
  simp only [terminated, declaration, bind_assoc, pure_bind]
  exact (reads_keyword _).next rfl fun _ => (reads_accept _).bind (by decide) fun _ =>
    reads_name.next rfl fun _ =>
      (reads_sign _).next rfl fun _ => reads_type.next rfl fun _ =>
        (reads_inside.optional rfl rfl).bind (by decide) fun _ =>
      (reads_sign _).next rfl fun _ => reads_pure _

section Statements
variable (k : Keyword)

theorem reads_unary (m : String → Statement) :
    (terminated (do keyword k; return m (← name) : Parser Statement)).Reads
      (row [Syntax.keyword k, Syntax.name, Syntax.sign .semicolon]) fun x => m x.2.1.text := by
  simp only [terminated, bind_assoc, pure_bind]
  exact (reads_keyword _).next rfl fun _ => reads_name.next rfl fun _ =>
    (reads_sign _).next rfl fun _ => reads_pure _

theorem reads_assigning (m : String → Option String → Statement) :
    (terminated (do keyword k; return m (← name) (← source) : Parser Statement)).Reads
      (row [Syntax.keyword k, Syntax.name, opt (row [Syntax.sign .equals, Syntax.name]),
        Syntax.sign .semicolon])
      fun x => m x.2.1.text (Syntax.sourceOf x.2.2.1) := by
  simp only [terminated, bind_assoc, pure_bind]
  exact (reads_keyword _).next rfl fun _ => reads_name.next rfl fun _ =>
    reads_source.bind (by decide) fun _ =>
      (reads_sign _).next rfl fun _ => reads_pure _

theorem reads_transfer (m : String → String → Statement) :
    (terminated (do keyword k; let dest ← name; sign .leftArrow; return m dest (← name) :
      Parser Statement)).Reads
      (row [Syntax.keyword k, Syntax.name, Syntax.sign .leftArrow, Syntax.name,
        Syntax.sign .semicolon])
      fun x => m x.2.1.text x.2.2.2.1.text := by
  simp only [terminated, bind_assoc, pure_bind]
  exact (reads_keyword _).next rfl fun _ => reads_name.next rfl fun _ =>
    (reads_sign _).next rfl fun _ =>
      reads_name.next rfl fun _ => (reads_sign _).next rfl fun _ => reads_pure _

end Statements

theorem reads_statementBody : (terminated statementBody).Reads Syntax.op Syntax.opOf := by
  rw [terminated, statementBody, bind_assoc]
  refine Chooses.reads ((Reads.chooses (.keyword .declare) reads_declaration (by decide) rfl).alt <|
    (Reads.chooses (.keyword .init) (reads_assigning .init fun x src => .op (.init x src))
      (by decide) rfl).alt <|
    (Reads.chooses (.keyword .move) (reads_transfer .move fun dest src => .op (.move dest src))
      (by decide) rfl).alt <|
    (Reads.chooses (.keyword .copy) (reads_transfer .copy fun dest src => .op (.copy dest src))
      (by decide) rfl).alt <|
    (Reads.chooses .name reads_definition (by decide) rfl).alt <|
    (Reads.chooses (.keyword .use) (reads_unary .use fun x => .op (.use x)) (by decide) rfl).alt <|
    (Reads.chooses (.keyword .write) (reads_assigning .write fun x src => .op (.write x src))
      (by decide) rfl).alt <|
    (Reads.chooses (.keyword .call) (reads_callTo none) (by decide) rfl).alt
    (Reads.chooses (.keyword .endScope) (reads_unary .endScope fun s => .op (.endScope s))
      (by decide) rfl)) ?_
  intro o hk ts
  split
  case h_10 => rfl
  all_goals exact absurd rfl (hk _ (by decide))

theorem reads_statement : statement.Reads Syntax.op Syntax.statementOf :=
  reads_statementBody.spanned.thenPure fun _ => rfl

theorem reads_branch : (terminated (do
    keyword .branch
    let first ← name
    let second ← name
    match ← optional .name name with
    | some third => return .branch second third (some first)
    | none => return .branch first second none : Parser Terminator)).Reads
    (alt Syntax.branchCondTerm Syntax.branchTerm)
      (Sum.elim Syntax.branchCondOf Syntax.branchOf) := by
  simp only [terminated, bind_assoc]
  refine Reads.factor ((reads_keyword _).next rfl fun _ =>
    Reads.factor (reads_name.next rfl fun first =>
      Reads.factor (reads_name.next rfl fun second =>
        Reads.expand ((reads_name.optional rfl rfl).bind (by decide) fun third =>
          ?_) rfl)))
  cases third <;> simp only [Option.map_none, Option.map_some, pure_bind] <;>
    exact (reads_sign _).next rfl fun _ => reads_pure _

theorem reads_terminator : (terminated terminator).Reads Syntax.terminator Syntax.terminatorOf := by
  have hjump : (terminated (do keyword .jump; return .jump (← name) : Parser Terminator)).Reads
      Syntax.jumpTerm Syntax.jumpOf := by
    simp only [terminated, bind_assoc, pure_bind]
    exact (reads_keyword _).next rfl fun _ => reads_name.next rfl fun _ =>
      (reads_sign _).next rfl fun _ => reads_pure _
  have hreturn :
      (terminated (do keyword .ret; return .ret (← optional .name name) : Parser Terminator)).Reads
      Syntax.returnTerm Syntax.returnOf := by
    simp only [terminated, bind_assoc, pure_bind]
    exact (reads_keyword _).next rfl fun _ =>
      (reads_name.optional rfl rfl).bind (by decide) fun _ =>
        (reads_sign _).next rfl fun _ => reads_pure _
  rw [terminated, terminator, bind_assoc]
  refine Chooses.reads ((Reads.chooses (.keyword .jump) hjump (by decide) rfl).alt <|
    (Reads.chooses (.keyword .branch) reads_branch (by decide) rfl).alt <|
    Reads.chooses (.keyword .ret) hreturn (by decide) rfl) ?_
  intro o hk ts
  split
  case h_4 => rfl
  all_goals exact absurd rfl (hk _ (by decide))

theorem reads_ending : ending.Reads Syntax.terminator Syntax.endingOf :=
  reads_terminator.spanned.thenPure fun _ => rfl

theorem startsStatement_iff (k : TokenKind) : startsStatement k = true ↔ k ∈ Syntax.op.firsts := by
  cases k with
  | keyword k => cases k <;> decide
  | sign s => cases s <;> decide
  | name | lifetime => decide

theorem reads_block : block.Reads Syntax.block Syntax.blockOf := by
  have hinner : (do
      let label ← name
      sign .colon
      let body ← many startsStatement statement
      return (label, body, ← ending) :
        Parser (String × List StatementExpr × Ending)).Reads Syntax.block
      fun x => (x.1.text, x.2.2.1.map Syntax.statementOf, Syntax.endingOf x.2.2.2.1) :=
    reads_name.next rfl fun _ => (reads_sign _).next rfl fun _ =>
      (reads_statement.many _ startsStatement_iff (by decide) rfl).bind (by decide) fun _ =>
        reads_ending.next rfl fun _ =>
      reads_pure _
  exact hinner.spanned.thenPure fun _ => rfl

theorem reads_externalItem : externalItem.Reads Syntax.externDef Syntax.externOf := by
  have hsemicolon : (discard (accept (.sign .semicolon)) : Parser Unit).Reads
      (opt (Syntax.sign .semicolon)) fun _ => () :=
    (reads_accept _).map _
  exact (reads_keyword _).next rfl fun _ => reads_signature.bind (by decide) fun _ =>
    hsemicolon.bind (by decide) fun _ =>
      reads_pure _

theorem reads_functionItem : functionItem.Reads Syntax.functionDef Syntax.functionOf := by
  have hscopes :=
    reads_scope.many (· == .keyword .scope) (fun k => by simp [Syntax.scope, firsts, nullable])
      (by decide) rfl
  have hblocks := reads_block.many (· == .name) (fun k => by simp [Syntax.block, firsts, nullable])
    (by decide) rfl
  exact reads_signature.bind (by decide) fun _ => (reads_sign _).next rfl fun _ =>
    hscopes.bind (by decide) fun _ =>
      reads_block.next rfl fun _ => hblocks.bind (by decide) fun _ =>
        (reads_sign _).next rfl fun _ => reads_pure _

theorem reads_item : item.Reads Syntax.item Syntax.itemOf := by
  refine Chooses.reads ((Reads.chooses (.keyword .struct) reads_structItem (by decide) rfl).alt <|
    (Reads.chooses (.keyword .variant) reads_variantItem (by decide) rfl).alt <|
    (Reads.chooses (.keyword .external) reads_externalItem (by decide) rfl).alt <|
    Reads.chooses (.keyword .function) reads_functionItem (by decide) rfl) ?_
  intro o hk ts
  split
  case h_5 => rfl
  all_goals exact absurd rfl (hk _ (by decide))

/-- All tokens are those of a listing, or the parser fails. -/
theorem run_items {ts r : List Token} {items : List Item} : Parser.items.run ts = .ok (items, r) ↔
    r = [] ∧ ∃ x : Syntax.program.Tree, Syntax.program.tokens x = ts ∧
    Syntax.itemsOf x = items := by
  constructor
  · intro hrun
    obtain ⟨xs, rfl, rfl, -, hr⟩ :=
      of_run_manyUpTo reads_item rfl (fun _ _ => rfl) (Nat.le_refl _) hrun
    cases r with
    | nil => exact ⟨rfl, xs, (List.append_nil _).symm, rfl⟩
    | cons t r => cases hr t rfl
  · rintro ⟨rfl, xs, rfl, rfl⟩
    have hrun := run_manyUpTo (r := []) reads_item rfl (by decide) (fun _ => true) (fun _ _ => rfl)
      (length_le_tokens rfl xs) (ends_of_nil xs) (by simp)
    rwa [List.append_nil] at hrun

end Parser

theorem parseItems_eq_ok {source : String} {file : Option String} {items : List Item} :
    parseItems source file = .ok items ↔
    ∃ x : Syntax.program.Tree, Splits file {} source.toList (Syntax.program.tokens x) ∧
      Syntax.itemsOf x = items := by
  simp only [splits_iff_scan, parseItems]
  constructor
  · intro h
    split at h
    next => cases h
    next l rest hrun =>
      split at h
      next hstop =>
        cases h
        simp only [Bool.and_eq_true, decide_eq_true_eq] at hstop
        obtain ⟨-, x, htokens, hitems⟩ := Parser.run_items.mp hrun
        exact ⟨x, by rw [htokens, ← hstop.2], hitems⟩
      next => cases h
  · rintro ⟨x, hscan, rfl⟩
    have hrun : Parser.items.run (scan source file).tokens = .ok (Syntax.itemsOf x, []) :=
      Parser.run_items.mpr ⟨rfl, x, by rw [hscan], rfl⟩
    rw [hrun, hscan]
    rfl

/-- The parser accepts exactly its grammar. A text is accepted with some items if and only if it
splits into the tokens of a derivation that says these items, and then there is one derivation
only. -/
theorem parseItems_iff_derivation (source : String) (file : Option String) (items : List Item) :
    parseItems source file = .ok items ↔
      ∃ x : Syntax.program.Tree, Splits file {} source.toList (Syntax.program.tokens x) ∧
        Syntax.itemsOf x = items ∧
        ∀ y : Syntax.program.Tree,
          Splits file {} source.toList (Syntax.program.tokens y) → y = x := by
  rw [parseItems_eq_ok]
  constructor
  · rintro ⟨x, hx, hitems⟩
    refine ⟨x, hx, hitems, fun y hy => ?_⟩
    have hscan := (splits_iff_scan.mp hy).symm.trans (splits_iff_scan.mp hx)
    refine Syntax.program_unambiguous (ends_of_nil y) (ends_of_nil x) ?_
    rw [(Scan.mk.inj hscan).1]
  · rintro ⟨x, hx, hitems, -⟩
    exact ⟨x, hx, hitems⟩

end Ownership.Listing
