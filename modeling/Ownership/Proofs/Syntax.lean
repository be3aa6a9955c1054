import Ownership.Listing.Tree
import Ownership.Proofs.Grammar

/-! # The grammar of listings

The rules of the grammar, each a form, and what each derivation says. The rules are those of the
language, so a list takes a comma behind its last element only where they have one, and of the
statements two start with a name.
-/
namespace Ownership.Listing

def spanOf (tokens : List Token) : Span :=
  match tokens.head?, tokens.getLast? with
  | some first, some last =>
    { first.span with endLine := last.span.endLine, endColumn := last.span.endColumn }
  | _, _ => .unknown

def Tok.text {k : TokenKind} (t : Tok k) : String := t.1.text

def Tok.word (t : Tok .name) : Word := ⟨t.1.text, t.1.span⟩

def TypeTree.expr : TypeTree → TypeExpr
  | named name => .named name.word
  | array _ element _ => .array element.expr
  | ref _ lifetime mutable inner => .ref (lifetime.map Tok.text) mutable.isSome inner.expr

namespace Syntax
open Form

abbrev name : Form := token .name
abbrev lifetime : Form := token .lifetime
abbrev keyword (k : Keyword) : Form := token (.keyword k)
abbrev sign (s : Sign) : Form := token (.sign s)

abbrev separatedBy (s : Sign) (f : Form) : Form := row [f, star (row [sign s, f])]
abbrev enclosed (opening : Sign) (f : Form) (close : Sign) : Form :=
  row [sign opening, f, sign close]

def field : Form := row [name, sign .colon, type]
def structDef : Form :=
  row [keyword .struct, name, opt (keyword .drop),
    enclosed .openBrace (opt (listed field)) .closeBrace]

def arm : Form := row [name, opt (enclosed .openParen (separatedBy .comma type) .closeParen)]
def variantDef : Form :=
  row [keyword .variant, name, enclosed .openBrace (opt (listed arm)) .closeBrace]

def lifetimeParam : Form := row [lifetime, opt (row [sign .colon, separatedBy .plus lifetime])]
def generics : Form := enclosed .less (separatedBy .comma lifetimeParam) .greater
def param : Form := row [opt (keyword .mutable), name, sign .colon, type]
def returns : Form := row [sign .rightArrow, type]
def signature : Form :=
  row [keyword .function, name, opt generics,
    enclosed .openParen (opt (separatedBy .comma param)) .closeParen, opt returns]

def scope : Form := row [keyword .scope, name, opt (row [keyword .inside, name]), sign .semicolon]

def args : Form := enclosed .openParen (opt (separatedBy .comma name)) .closeParen
def lifetimeBinding : Form := row [lifetime, sign .equals, name, star name]
def withClause : Form := row [keyword .binding, separatedBy .comma lifetimeBinding]

def declareOp : Form :=
  row [keyword .declare, opt (keyword .mutable), name, sign .colon, type,
    opt (row [keyword .inside, name]), sign .semicolon]
def initOp : Form := row [keyword .init, name, opt (row [sign .equals, name]), sign .semicolon]
def moveOp : Form := row [keyword .move, name, sign .leftArrow, name, sign .semicolon]
def copyOp : Form := row [keyword .copy, name, sign .leftArrow, name, sign .semicolon]
def borrowOp : Form :=
  row [name, sign .equals, keyword .borrow, opt (keyword .mutable), name, sign .semicolon]
def callDestOp : Form :=
  row [name, sign .equals, keyword .call, name, args, opt withClause, sign .semicolon]
def useOp : Form := row [keyword .use, name, sign .semicolon]
def writeOp : Form := row [keyword .write, name, opt (row [sign .equals, name]), sign .semicolon]
def callOp : Form := row [keyword .call, name, args, opt withClause, sign .semicolon]
def endOp : Form := row [keyword .endScope, name, sign .semicolon]
def op : Form :=
  alt declareOp <| alt initOp <| alt moveOp <| alt copyOp <| alt (alt borrowOp callDestOp) <|
    alt useOp <| alt writeOp <|
    alt callOp endOp

def jumpTerm : Form := row [keyword .jump, name, sign .semicolon]
def branchCondTerm : Form := row [keyword .branch, name, name, name, sign .semicolon]
def branchTerm : Form := row [keyword .branch, name, name, sign .semicolon]
def returnTerm : Form := row [keyword .ret, opt name, sign .semicolon]
def terminator : Form := alt jumpTerm <| alt (alt branchCondTerm branchTerm) returnTerm

def block : Form := row [name, sign .colon, star op, terminator]

def externDef : Form := row [keyword .external, signature, opt (sign .semicolon)]
def functionDef : Form :=
  row [signature, sign .openBrace, star scope, block, star block, sign .closeBrace]
def item : Form := alt structDef <| alt variantDef <| alt externDef functionDef

def program : Form := star item

theorem program_unambiguous : program.Unambiguous := unambiguous_of_predictive (by decide)

section
variable {f : Form} {s : Sign}

def elements (x : (separatedBy s f).Tree) : List f.Tree := x.1 :: x.2.1.map fun y => y.2.1

def elementsOpt (x : (opt (separatedBy s f)).Tree) : List f.Tree := x.elim [] elements

def elementsListed (x : (opt (listed f)).Tree) : List f.Tree :=
  x.elim [] fun y => y.1 :: y.2.1.map Prod.snd

end

def fieldOf : field.Tree → Word × TypeExpr := fun (w, _, t, _) => (w.word, t.expr)

def structOf : structDef.Tree → Item := fun (_, w, finalizer, (_, fields, _), _) =>
  .struct w.word finalizer.isSome ((elementsListed fields).map fieldOf)

def armOf : arm.Tree → Word × List TypeExpr := fun (w, payload, _) =>
  (w.word, payload.elim [] fun (_, types, _) => (elements types).map TypeTree.expr)

def variantOf : variantDef.Tree → Item := fun (_, w, (_, arms, _), _) =>
    .variant w.word ((elementsListed arms).map armOf)

def lifetimeParamOf (x : lifetimeParam.Tree) : LifetimeExpr where
  name := x.1.text
  bounds := x.2.1.elim [] fun (_, bounds, _) => (elements bounds).map Tok.text
  span := spanOf (lifetimeParam.tokens x)

def genericsOf : (opt generics).Tree → List LifetimeExpr := fun x =>
  x.elim [] fun (_, params, _) => (elements params).map lifetimeParamOf

def paramOf : param.Tree → ParamExpr := fun (mutable, x, _, t, _) =>
    ⟨mutable.isSome, x.text, t.expr⟩

def signatureOf (x : signature.Tree) : SignatureExpr :=
  let (_, f, gs, (_, params, _), ret, _) := x
  { name := f.text
    generics := genericsOf gs
    params := (elementsOpt params).map paramOf
    returns := ret.map fun (_, t, _) => t.expr
    span := spanOf (signature.tokens x) }

def scopeOf (x : scope.Tree) : ScopeExpr :=
  let (_, s, parent, _) := x
  { name := s.text, parent := parent.map fun (_, p, _) => p.text, span := spanOf (scope.tokens x) }

def argsOf : args.Tree → List String := fun (_, names, _) => (elementsOpt names).map Tok.text

def lifetimeBindingOf : lifetimeBinding.Tree → String × List String := fun (lt, _, x, xs, _) =>
  (lt.text, x.text :: xs.map Tok.text)

def withClauseOf : (opt withClause).Tree → List (String × List String) := fun x =>
  x.elim [] fun (_, bindings, _) => (elements bindings).map lifetimeBindingOf

def declareOf : declareOp.Tree → Statement := fun (_, mutable, x, _, t, s, _) =>
  .declare mutable.isSome x.text t.expr (s.map fun (_, s, _) => s.text)

def sourceOf : (opt (row [sign .equals, name])).Tree → Option String :=
  Option.map fun (_, x, _) => x.text

def initOf : initOp.Tree → Statement := fun (_, x, src, _) => .op (.init x.text (sourceOf src))

def moveOf : moveOp.Tree → Statement := fun (_, dest, _, src, _) => .op (.move dest.text src.text)

def copyOf : copyOp.Tree → Statement := fun (_, dest, _, src, _) => .op (.copy dest.text src.text)

def borrowOf : borrowOp.Tree → Statement := fun (ref, _, _, mutable, x, _) =>
  .op (.borrow x.text (if mutable.isSome then .exclusive else .shared) ref.text)

def callDestOf : callDestOp.Tree → Statement := fun (dest, _, _, f, xs, lts, _) =>
  .op (.call { function := f.text, args := argsOf xs, lifetimes := withClauseOf lts,
               dest := some dest.text })

def useOf : useOp.Tree → Statement := fun (_, x, _) => .op (.use x.text)

def writeOf : writeOp.Tree → Statement := fun (_, x, src, _) => .op (.write x.text (sourceOf src))

def callOf : callOp.Tree → Statement := fun (_, f, xs, lts, _) =>
  .op (.call { function := f.text, args := argsOf xs, lifetimes := withClauseOf lts, dest := none })

def endOf : endOp.Tree → Statement := fun (_, s, _) => .op (.endScope s.text)

def opOf : op.Tree → Statement :=
  Sum.elim declareOf <| Sum.elim initOf <| Sum.elim moveOf <| Sum.elim copyOf <|
    Sum.elim (Sum.elim borrowOf callDestOf) <|
    Sum.elim useOf <| Sum.elim writeOf <| Sum.elim callOf endOf

def statementOf (x : op.Tree) : StatementExpr := ⟨opOf x, spanOf (op.tokens x)⟩

def jumpOf : jumpTerm.Tree → Terminator := fun (_, target, _) => .jump target.text

def branchCondOf : branchCondTerm.Tree → Terminator := fun (_, x, first, second, _) =>
  .branch first.text second.text (some x.text)

def branchOf : branchTerm.Tree → Terminator := fun (_, first, second, _) =>
    .branch first.text second.text none

def returnOf : returnTerm.Tree → Terminator := fun (_, x, _) => .ret (x.map Tok.text)

def terminatorOf : terminator.Tree → Terminator :=
  Sum.elim jumpOf <| Sum.elim (Sum.elim branchCondOf branchOf) returnOf

def endingOf (x : terminator.Tree) : Ending := ⟨terminatorOf x, spanOf (terminator.tokens x)⟩

def blockOf (x : block.Tree) : BlockExpr :=
  let (label, _, body, ending, _) := x
  { label := label.text, body := body.map statementOf, ending := endingOf ending,
    span := spanOf (block.tokens x) }

def externOf : externDef.Tree → Item := fun (_, s, _) => .external (signatureOf s)

def functionOf : functionDef.Tree → Item := fun (s, _, scopes, first, blocks, _) =>
  .function (signatureOf s) (scopes.map scopeOf) (blockOf first :: blocks.map blockOf)

def itemOf : item.Tree → Item :=
  Sum.elim structOf <| Sum.elim variantOf <| Sum.elim externOf functionOf

def itemsOf : program.Tree → List Item := List.map itemOf

end Syntax
end Ownership.Listing
