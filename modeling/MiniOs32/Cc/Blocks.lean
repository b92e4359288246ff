import MiniOs32.Cc.Scope

/-!
# C's block scope

The declaration an identifier stands for by C's rules: the innermost block, `for` clause, `switch` body or parameter list that
declares it before its use, else the variable, function or enumerator at file scope. A statement under an `if` or a loop is a
block of its own. The identifiers are visited in the order in which the compiler looks them up, so that its results can be laid
beside them.
-/

namespace MiniOs32

/-- The declarations at file scope; the enumerators with the latest first. -/
structure FileScope where
  enums : List Enumerator
  globals : List (List Byte)
  funcs : List (List Byte)

namespace FileScope

/-- The enumerator of a name. -/
def findEnum (F : FileScope) (x : List Byte) : Option Nat := (F.enums.find? fun e => decide (e.1 = x)).map (·.2)

/-- The variable, function or enumerator of a name. -/
def find (F : FileScope) (x : List Byte) : Option Entity :=
  if x ∈ F.globals then some (.global x)
  else if x ∈ F.funcs then some (.func x)
  else (F.findEnum x).map .enumerator

/-- Enumerators declared at file scope. -/
def addEnums (F : FileScope) (es : List Enumerator) : FileScope := { F with enums := es.reverse ++ F.enums }

end FileScope

/-- The scope at a point of a function: what its blocks declare, the innermost and latest first, and the file scope. Beside it,
the names that were declared in a `switch` body, or by a whole statement under an `if` or a loop, that has ended in the
innermost block, and that are not declared again since. -/
structure CScope where
  block : List (List Byte × Entity)
  file : FileScope
  left : List (List Byte)

/-- What a name is looked up for, the declaration visible there, whether the file scope has an enumerator or a function of that
name, visible or not, and whether the name is left over from a part that has ended. -/
structure Look where
  rule : Lookup
  seen : Option Entity
  enum : Option Nat
  fn : Bool
  left : Bool

namespace CScope

/-- The declaration visible under a name. -/
def visible (S : CScope) (x : List Byte) : Option Entity :=
  ((S.block.find? fun b => decide (b.1 = x)).map (·.2)).or (S.file.find x)

/-- A look at a name. -/
def look (S : CScope) (l : Lookup) : Look :=
  ⟨l, S.visible l.name, S.file.findEnum l.name, decide (l.name ∈ S.file.funcs), decide (l.name ∈ S.left)⟩

/-- A declaration in the innermost block. -/
def declare (S : CScope) (x : List Byte) (e : Entity) : CScope :=
  { S with block := (x, e) :: S.block, left := S.left.filter (· ≠ x) }

/-- The scope behind a part that leaves the scope `E`: nothing declared in it is visible any more. -/
def leave (S E : CScope) : CScope :=
  { S with left := (E.block.take (E.block.length - S.block.length)).map (·.1) ++ E.left }

/-- The `sizeof` operands of an expression. -/
def parse (S : CScope) (e : Source) : List Look := (e.sizes.flatMap Node.reads).map S.look

/-- The names of an expression outside its `sizeof`s. -/
def gen (S : CScope) (e : Source) : List Look := e.tree.gens.map S.look

/-- An expression. -/
def source (S : CScope) (e : Source) : List Look := S.parse e ++ S.gen e

/-- A constant expression. -/
def constant (S : CScope) (e : Source) : List Look := S.parse e ++ e.tree.consts.map S.look

/-- A variable: its scope begins before its initialiser. -/
def declarator (static : Bool) (S : CScope) (d : Declarator) : List Look × CScope :=
  let L := S.declare d.name (.local d.id)
  (d.dims.flatMap S.constant ++
    match d.init with
    | .none | .text => []
    | .expr e => if static then L.constant e else L.source e
    | .braced es => if static then es.flatMap L.constant else es.flatMap L.parse ++ es.flatMap L.gen, L)

/-- The variables of a declaration. -/
def declarators (static : Bool) : CScope → List Declarator → List Look × CScope
  | S, [] => ([], S)
  | S, d :: ds =>
    ((S.declarator static d).1 ++ (declarators static (S.declarator static d).2 ds).1,
      (declarators static (S.declarator static d).2 ds).2)

/-- A type. -/
def typeSpec : CScope → List TypePart → List Look × CScope
  | S, [] => ([], S)
  | S, .enumerator e :: ps => typeSpec (S.declare e.1 (.enumerator e.2)) ps
  | S, .dim e :: ps => (S.constant e ++ (typeSpec S ps).1, (typeSpec S ps).2)

/-- `extern` variables. -/
def externs : CScope → List (List Byte × List Source) → List Look × CScope
  | S, [] => ([], S)
  | S, x :: xs =>
    (x.2.flatMap S.constant ++ (externs (S.declare x.1 (.global x.1)) xs).1, (externs (S.declare x.1 (.global x.1)) xs).2)

/-- A declaration. -/
def decl (S : CScope) : Decl → List Look × CScope
  | .vars static ps ds =>
    ((S.typeSpec ps).1 ++ ((S.typeSpec ps).2.declarators static ds).1, ((S.typeSpec ps).2.declarators static ds).2)
  | .externs ps xs => ((S.typeSpec ps).1 ++ ((S.typeSpec ps).2.externs xs).1, ((S.typeSpec ps).2.externs xs).2)
  | .types ps => S.typeSpec ps

/-- The first clause of a `for`. -/
def forInit (S : CScope) : ForInit → List Look × CScope
  | .none => ([], S)
  | .expr e => (S.source e, S)
  | .decl d => S.decl d

end CScope

mutual

/-- The names of a statement, and the scope behind it: only a declaration changes what is visible. -/
def cStmt (S : CScope) : Stmt → List Look × CScope
  | .block ss => ((cStmts S ss).1, S)
  | .decl d => S.decl d
  | .expr e => (S.source e, S)
  | .ret none => ([], S)
  | .ret (some e) => (S.source e, S)
  | .jump | .default => ([], S)
  | .label s => cStmt S s
  | .ifThen c s => (S.source c ++ (cStmt S s).1, S.leave (cStmt S s).2)
  | .ifElse c s t =>
    let E := S.leave (cStmt S s).2
    (S.source c ++ (cStmt S s).1 ++ (cStmt E t).1, E.leave (cStmt E t).2)
  | .whileLoop c s => (S.source c ++ (cStmt S s).1, S.leave (cStmt S s).2)
  | .doLoop s c =>
    let E := S.leave (cStmt S s).2
    ((cStmt S s).1 ++ E.source c, E)
  | .forLoop init cond post s =>
    let i := S.forInit init
    let E := i.2.leave (cStmt i.2 s).2
    (i.1 ++ cond.toList.flatMap i.2.parse ++ post.toList.flatMap i.2.parse ++ cond.toList.flatMap i.2.gen ++
      (cStmt i.2 s).1 ++ post.toList.flatMap E.gen, S)
  | .switch c ss => (S.source c ++ (cStmts S ss).1, S.leave (cStmts S ss).2)
  | .case e => (S.constant e, S)

/-- Statements one after the other. -/
def cStmts (S : CScope) : List Stmt → List Look × CScope
  | [] => ([], S)
  | s :: ss => ((cStmt S s).1 ++ (cStmts (cStmt S s).2 ss).1, (cStmts (cStmt S s).2 ss).2)

end

/-- The names in a declaration at file scope, and the file scope behind it. -/
def cTop (F : FileScope) : TopDecl → List Look × FileScope
  | .vars es xs => ([], { F.addEnums es with globals := xs ++ F.globals })
  | .types es => ([], F.addEnums es)
  | .proto es x => ([], { F.addEnums es with funcs := x :: F.funcs })
  | .func es x pes ps body =>
    let G : FileScope := { F.addEnums es with funcs := x :: F.funcs }
    let params := ps.map fun p => (p.1, Entity.local p.2)
    ((cStmt ⟨params.reverse ++ pes.reverse.map fun e => (e.1, .enumerator e.2), G, []⟩ body).1, G)

/-- The file scope at the start of a unit. -/
def FileScope.empty : FileScope := ⟨[], [], []⟩

/-! ## What a name should be found to be -/

/-- A variable, as opposed to a function or an enumerator. -/
def Entity.isVar : Entity → Bool
  | .local _ | .global _ => true
  | _ => false

/-- What the compiler should find: the declaration visible. A call of a function goes to the builtin of that name if there is one;
reading the type of a call asks for a function, and a constant expression for an enumerator. -/
def Look.wanted (l : Look) : Option Entity :=
  match l.rule with
  | .value _ | .addrRead _ => l.seen
  | .called x =>
    match l.seen with
    | some (.func _) | none => if isBuiltin x then some (.builtin x) else some (.func x)
    | some e => some e
  | .callRead _ =>
    match l.seen with
    | some (.func f) => some (.func f)
    | some (.enumerator i) => some (.enumerator i)
    | _ => none
  | .const _ =>
    match l.seen with
    | some (.enumerator i) => some (.enumerator i)
    | _ => none

/-! ## The condition -/

/-- The names a symbol keeps in full and a `static` variable's storage does not take. -/
def PlainName (x : List Byte) : Prop := x.length ≤ 30 ∧ ¬(asciiBytes "__st_").isPrefixOf x

instance (x : List Byte) : Decidable (PlainName x) := inferInstanceAs (Decidable (_ ∧ _))

/-- The condition on a use: its name is plain and not left over, no enumerator of that name is hidden, and no function or builtin
of that name is hidden where the order of the tables matters: at a call of a builtin, and where the type of `&x` or `x()` is read
off. A function is declared before it is called. -/
def Look.Plain (l : Look) : Prop :=
  PlainName l.rule.name ∧ (∀ i, l.enum = some i → l.seen = some (.enumerator i)) ∧ (l.enum = none → l.left = false) ∧
    match l.rule with
    | .called x => if isBuiltin x then l.seen.any Entity.isVar = false else l.seen ≠ none
    | .addrRead _ | .callRead _ => l.fn = true → l.seen.any Entity.isVar = false
    | _ => True

instance : ∀ l : Look, Decidable l.Plain
  | ⟨.value _, seen, enum, _, left⟩ | ⟨.const _, seen, enum, _, left⟩ =>
    inferInstanceAs (Decidable (_ ∧ (∀ i ∈ enum, seen = some (.enumerator i)) ∧ (enum = none → left = false) ∧ True))
  | ⟨.called x, seen, enum, _, left⟩ =>
    inferInstanceAs (Decidable (_ ∧ (∀ i ∈ enum, seen = some (.enumerator i)) ∧ (enum = none → left = false) ∧
      if isBuiltin x then seen.any Entity.isVar = false else seen ≠ none))
  | ⟨.addrRead _, seen, enum, fn, left⟩ | ⟨.callRead _, seen, enum, fn, left⟩ =>
    inferInstanceAs (Decidable (_ ∧ (∀ i ∈ enum, seen = some (.enumerator i)) ∧ (enum = none → left = false) ∧
      (fn = true → seen.any Entity.isVar = false)))

/-- The condition on a variable of a function: the parts of its initialiser that are parsed before it is added do not read its
type. -/
def Declarator.Plain (static : Bool) (d : Declarator) : Prop :=
  PlainName d.name ∧
    match d.init with
    | .none | .text => True
    | .expr e => static = true → ∀ l ∈ e.sizes.flatMap Node.reads, l.name ≠ d.name
    | .braced es => static = false ∧ ∀ e ∈ es, ∀ l ∈ e.sizes.flatMap Node.reads, l.name ≠ d.name

/-- A type that defines no enumerators. -/
def TypePart.Plain : TypePart → Prop
  | .enumerator _ => False
  | .dim _ => True

/-- The condition on a declaration in a function: it declares variables that are not `extern`, and no enumerators. -/
def Decl.Plain : Decl → Prop
  | .vars static ps ds => (∀ p ∈ ps, p.Plain) ∧ ∀ d ∈ ds, d.Plain static
  | .externs _ _ => False
  | .types ps => ∀ p ∈ ps, p.Plain

/-- The condition on the first clause of a `for`. -/
def ForInit.Plain : ForInit → Prop
  | .decl d => d.Plain
  | _ => True

mutual

/-- The condition on a statement: that on the declarations in it. -/
def Stmt.Plain : Stmt → Prop
  | .block ss | .switch _ ss => Stmt.AllPlain ss
  | .decl d => d.Plain
  | .expr _ | .ret _ | .jump | .default | .case _ => True
  | .label s | .ifThen _ s | .whileLoop _ s | .doLoop s _ => s.Plain
  | .ifElse _ s t => s.Plain ∧ t.Plain
  | .forLoop init _ _ s => init.Plain ∧ s.Plain

/-- The condition on statements. -/
def Stmt.AllPlain : List Stmt → Prop
  | [] => True
  | s :: ss => s.Plain ∧ Stmt.AllPlain ss

end

/-- The condition on a declaration at file scope. -/
def TopDecl.Plain : TopDecl → Prop
  | .vars es xs => (∀ e ∈ es, PlainName e.1) ∧ ∀ x ∈ xs, PlainName x
  | .types es => ∀ e ∈ es, PlainName e.1
  | .proto es x => (∀ e ∈ es, PlainName e.1) ∧ PlainName x
  | .func es x pes ps body => (∀ e ∈ es, PlainName e.1) ∧ PlainName x ∧ pes = [] ∧ (∀ p ∈ ps, PlainName p.1) ∧ body.Plain

end MiniOs32
