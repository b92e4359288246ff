import MiniOs32.Cc.Expr

/-!
# The compiler: names in function bodies

How `cc` finds what an identifier stands for. `parse_primary` replaces the name of an enumerator by its value as soon as it is
read; every other name stays in the tree and is looked up when code is generated for it, which for the last clause of a `for` is
after the loop's body. `sizeof` and `?:` read types off trees with `infer_type`, which looks names up in an order of its own.

A translation unit is given as its syntax tree, with a number at each declaration of a variable or an enumerator. Of a type it
has the enumerators it defines and the sizes of its arrays; names of types are left out, and so are members and labels, which
have name spaces of their own. A name that is not found ends the compilation, except where only the type of a call is read. The
names in the tables are cut to 31 bytes; the buffers they go through are taken to end in a zero byte.
-/

namespace MiniOs32

/-! ## Syntax -/

/-- An expression: its tree, with a number in place of each `sizeof`, and the operands of its `sizeof`s. The identifiers are
those of the source, enumerators included. -/
structure Source where
  tree : Node
  sizes : List Node

/-- An initialiser. -/
inductive Init where
  | none
  | text
  | expr (e : Source)
  | braced (es : List Source)

/-- A declarator of a variable, with the expressions in its array suffixes. -/
structure Declarator where
  name : List Byte
  id : Nat
  dims : List Source
  init : Init

/-- An enumerator and its number. -/
abbrev Enumerator : Type := List Byte × Nat

/-- What a type may hold that concerns names: an enumerator it defines, or the size of an array. -/
inductive TypePart where
  | enumerator (e : Enumerator)
  | dim (e : Source)

/-- A declaration in a function: variables (`static` or not), `extern` variables, or only types. -/
inductive Decl where
  | vars (static : Bool) (type : List TypePart) (ds : List Declarator)
  | externs (type : List TypePart) (names : List (List Byte × List Source))
  | types (type : List TypePart)

/-- The first clause of a `for`. -/
inductive ForInit where
  | none
  | expr (e : Source)
  | decl (d : Decl)

/-- A statement. `jump` is `break`, `continue` or `goto`; `case` and `default` stand between the statements of a `switch`. -/
inductive Stmt where
  | block (ss : List Stmt)
  | decl (d : Decl)
  | expr (e : Source)
  | ret (e : Option Source)
  | jump
  | label (s : Stmt)
  | ifThen (c : Source) (s : Stmt)
  | ifElse (c : Source) (s t : Stmt)
  | whileLoop (c : Source) (s : Stmt)
  | doLoop (s : Stmt) (c : Source)
  | forLoop (init : ForInit) (cond post : Option Source) (s : Stmt)
  | switch (c : Source) (ss : List Stmt)
  | case (e : Source)
  | default

/-- A declaration at file scope. -/
inductive TopDecl where
  | vars (enums : List Enumerator) (names : List (List Byte))
  | types (enums : List Enumerator)
  | proto (enums : List Enumerator) (name : List Byte)
  | func (enums : List Enumerator) (name : List Byte) (paramEnums params : List Enumerator) (body : Stmt)

/-! ## What is looked up -/

/-- One look at a name: for its value, as the function called, for the type of `&x` or of `x()`, or in a constant expression. -/
inductive Lookup where
  | value (x : List Byte)
  | called (x : List Byte)
  | addrRead (x : List Byte)
  | callRead (x : List Byte)
  | const (x : List Byte)
  deriving DecidableEq

/-- The name looked up. -/
def Lookup.name : Lookup → List Byte
  | value x | called x | addrRead x | callRead x | const x => x

/-- The names `infer_type` looks up. -/
def Node.reads : Node → List Lookup
  | .var x => [.value x]
  | .addr e =>
    match e with
    | .var x => [.addrRead x]
    | _ => e.reads
  | .deref e | .index e _ | .dot e _ | .arrow e _ => e.reads
  | .bin _ a _ | .logical _ a _ | .assign a _ | .unary _ a => a.reads
  | .call c _ =>
    match c with
    | .var x => [.callRead x]
    | _ => []
  | .tern _ a b => a.reads ++ b.reads
  | .num _ | .fnum _ | .str _ | .cast _ _ | .vaArg _ _ => []

mutual

/-- The names looked up while code is generated. `?:` reads the types of its arms first; the arguments of `va_end` are not
generated. -/
def Node.gens : Node → List Lookup
  | .num _ | .fnum _ | .str _ => []
  | .var x => [.value x]
  | .addr e | .deref e | .dot e _ | .arrow e _ | .cast _ e | .unary _ e | .vaArg e _ => e.gens
  | .bin _ a b | .logical _ a b | .assign a b | .index a b => a.gens ++ b.gens
  | .tern c a b => a.reads ++ b.reads ++ c.gens ++ a.gens ++ b.gens
  | .call c args =>
    match c with
    | .var x => .called x :: if x = asciiBytes "va_end" then [] else Node.argGens args
    | _ => Node.argGens args ++ c.gens

/-- The names looked up in arguments, the last argument first. -/
def Node.argGens : List Node → List Lookup
  | [] => []
  | a :: as => Node.argGens as ++ a.gens

end

mutual

/-- The names in a constant expression, which `eval_const` accepts only as enumerators. -/
def Node.consts : Node → List Lookup
  | .num _ | .fnum _ | .str _ => []
  | .var x => [.const x]
  | .addr e | .deref e | .dot e _ | .arrow e _ | .cast _ e | .unary _ e | .vaArg e _ => e.consts
  | .bin _ a b | .logical _ a b | .assign a b | .index a b => a.consts ++ b.consts
  | .tern c a b => c.consts ++ a.consts ++ b.consts
  | .call c args => c.consts ++ Node.argConsts args

/-- The names in the arguments of a call. -/
def Node.argConsts : List Node → List Lookup
  | [] => []
  | a :: as => a.consts ++ Node.argConsts as

end

/-- What a name is found to be. Variables at file scope and functions are known by their names. -/
inductive Entity where
  | enumerator (id : Nat)
  | local (id : Nat)
  | global (x : List Byte)
  | func (x : List Byte)
  | builtin (x : List Byte)
  deriving DecidableEq

/-! ## The tables -/

/-- The tables names are found in, in the order of their entries, and `static_local_id`. -/
structure Tables where
  enums : List Enumerator
  locals : List (List Byte × Nat)
  globals : List (List Byte)
  funcs : List (List Byte)
  statics : Nat

/-- A name as a symbol stores it. -/
def stored (x : List Byte) : List Byte := x.take 31

/-- A name `gen_call` compiles on its own account. -/
def isBuiltin (x : List Byte) : Bool :=
  decide (x = asciiBytes "va_start") || decide (x = asciiBytes "va_end") || isSyscall x

namespace Tables

/-- `find_enum_const`: the whole text of the identifier is compared. -/
def findEnum (T : Tables) (x : List Byte) : Option Nat := (T.enums.find? fun e => decide (e.1 = x)).map (·.2)

/-- `find_local`, else `find_global`. -/
def findVar (T : Tables) (x : List Byte) : Option Entity :=
  ((T.locals.reverse.find? fun s => decide (s.1 = stored x)).map fun s => .local s.2).or
    (if stored x ∈ T.globals then some (.global x) else none)

/-- `find_func`. -/
def findFunc (T : Tables) (x : List Byte) : Option Entity := if stored x ∈ T.funcs then some (.func x) else none

/-- `add_enum_const`: an enumerator of that name gets the new value. -/
def addEnum (T : Tables) (e : Enumerator) : Tables :=
  if T.enums.any fun e' => decide (e'.1 = stored e.1) then
    { T with enums := T.enums.map fun e' => if e'.1 = stored e.1 then (e'.1, e.2) else e' }
  else { T with enums := T.enums ++ [(stored e.1, e.2)] }

/-- The enumerators of a type. -/
def addEnums (T : Tables) (es : List Enumerator) : Tables := es.foldl addEnum T

/-- `add_local`, `add_param` and `add_local_alias`. -/
def addLocal (T : Tables) (x : List Byte) (id : Nat) : Tables := { T with locals := T.locals ++ [(stored x, id)] }

/-- `add_global_decl` and the other ways a variable enters `globals`: a name is there once. -/
def addGlobal (T : Tables) (x : List Byte) : Tables :=
  if stored x ∈ T.globals then T else { T with globals := T.globals ++ [stored x] }

/-- `add_func`. -/
def addFunc (T : Tables) (x : List Byte) : Tables :=
  if stored x ∈ T.funcs then T else { T with funcs := T.funcs ++ [stored x] }

/-- The name under which a `static` variable of a function goes into `globals`. -/
def staticName (fn x : List Byte) (id : Nat) : List Byte :=
  asciiBytes "__st_" ++ fn.take 43 ++ asciiBytes "_" ++ x.take (52 - min fn.length 43) ++ asciiBytes "_" ++
    [BitVec.ofNat 8 (48 + id % 10)]

/-- The storage of a `static` variable. -/
def addStatic (T : Tables) (fn x : List Byte) : Tables :=
  { T with globals := T.globals ++ [stored (staticName fn x T.statics)], statics := T.statics + 1 }

/-- What a name is found to be: an enumerator of the tables `P` at the time it is parsed, else by the tables `G` at the time
it is generated. -/
def find (P G : Tables) (l : Lookup) : Option Entity :=
  match P.findEnum l.name with
  | some id => some (.enumerator id)
  | none =>
    match l with
    | .value x => (G.findVar x).or (G.findFunc x)
    | .called x => if isBuiltin x then some (.builtin x) else (G.findVar x).or (some (.func x))
    | .addrRead x => (G.findFunc x).or (G.findVar x)
    | .callRead x => G.findFunc x
    | .const _ => none

/-- A call of a name nothing declares adds a function. -/
def after (P G : Tables) (l : Lookup) : Tables :=
  match l with
  | .called x =>
    if (P.findEnum x).isSome || isBuiltin x || (G.findVar x).isSome then G else G.addFunc x
  | _ => G

/-- Several looks, one after the other. -/
def findAll (P : Tables) : Tables → List Lookup → List (Option Entity) × Tables
  | G, [] => ([], G)
  | G, l :: ls => (P.find G l :: (findAll P (P.after G l) ls).1, (findAll P (P.after G l) ls).2)

/-- The looks at the types of `sizeof` operands, made while the expression is parsed. -/
def parse (T : Tables) (e : Source) : List (Option Entity) := (e.sizes.flatMap Node.reads).map (T.find T)

/-- An expression parsed and generated. -/
def source (T : Tables) (e : Source) : List (Option Entity) × Tables :=
  (T.parse e ++ (T.findAll T e.tree.gens).1, (T.findAll T e.tree.gens).2)

/-- A constant expression. -/
def constant (T : Tables) (e : Source) : List (Option Entity) := T.parse e ++ e.tree.consts.map (T.find T)

/-- Expressions of a list, parsed first and generated later. -/
def braced (P : Tables) : Tables → List Source → List (Option Entity) × Tables
  | G, [] => ([], G)
  | G, e :: es =>
    ((P.findAll G e.tree.gens).1 ++ (braced P (P.findAll G e.tree.gens).2 es).1, (braced P (P.findAll G e.tree.gens).2 es).2)

/-- A variable of `parse_decl_stmt`. One that is not `static` is added before its initialiser is parsed, except for a list in
braces; a `static` one after its initialiser, which is a constant and never a list in braces. -/
def declarator (fn : List Byte) (static : Bool) (T : Tables) (d : Declarator) : List (Option Entity) × Tables :=
  let dims := d.dims.flatMap T.constant
  if static then
    let S := T.addStatic fn d.name
    match d.init with
    | .none | .text => (dims, S.addLocal d.name d.id)
    | .expr e => (dims ++ S.constant e, S.addLocal d.name d.id)
    | .braced _ => (dims ++ [none], S.addLocal d.name d.id)
  else
    let L := T.addLocal d.name d.id
    match d.init with
    | .none | .text => (dims, L)
    | .expr e => (dims ++ (L.source e).1, (L.source e).2)
    | .braced es => (dims ++ es.flatMap T.parse ++ (T.braced L es).1, (T.braced L es).2)

/-- The variables of a declaration. -/
def declarators (fn : List Byte) (static : Bool) : Tables → List Declarator → List (Option Entity) × Tables
  | T, [] => ([], T)
  | T, d :: ds =>
    ((T.declarator fn static d).1 ++ (declarators fn static (T.declarator fn static d).2 ds).1,
      (declarators fn static (T.declarator fn static d).2 ds).2)

/-- `parse_type_spec`. -/
def typeSpec : Tables → List TypePart → List (Option Entity) × Tables
  | T, [] => ([], T)
  | T, .enumerator e :: ps => typeSpec (T.addEnum e) ps
  | T, .dim e :: ps => (T.constant e ++ (typeSpec T ps).1, (typeSpec T ps).2)

/-- The `extern` variables of a declaration. -/
def externs : Tables → List (List Byte × List Source) → List (Option Entity) × Tables
  | T, [] => ([], T)
  | T, x :: xs => (x.2.flatMap T.constant ++ (externs (T.addGlobal x.1) xs).1, (externs (T.addGlobal x.1) xs).2)

/-- `parse_decl_stmt`. -/
def decl (fn : List Byte) (T : Tables) : Decl → List (Option Entity) × Tables
  | .vars static ps ds =>
    ((T.typeSpec ps).1 ++ ((T.typeSpec ps).2.declarators fn static ds).1, ((T.typeSpec ps).2.declarators fn static ds).2)
  | .externs ps xs => ((T.typeSpec ps).1 ++ ((T.typeSpec ps).2.externs xs).1, ((T.typeSpec ps).2.externs xs).2)
  | .types ps => T.typeSpec ps

/-- The first clause of a `for`. -/
def forInit (fn : List Byte) (T : Tables) : ForInit → List (Option Entity) × Tables
  | .none => ([], T)
  | .expr e => T.source e
  | .decl d => T.decl fn d

/-- An optional expression, parsed in the tables `P` and generated in `G`. -/
def later (P G : Tables) : Option Source → List (Option Entity) × Tables
  | none => ([], G)
  | some e => P.findAll G e.tree.gens

/-- `locals_len` put back to what it was. -/
def restore (T old : Tables) : Tables := { T with locals := T.locals.take old.locals.length }

end Tables

mutual

/-- `gen_stmt`: what its names are found to be, in the order in which they are looked up, and the tables it leaves. -/
def genStmt (fn : List Byte) (T : Tables) : Stmt → List (Option Entity) × Tables
  | .block ss => ((genStmts fn T ss).1, (genStmts fn T ss).2.restore T)
  | .decl d => T.decl fn d
  | .expr e => T.source e
  | .ret none => ([], T)
  | .ret (some e) => T.source e
  | .jump | .default => ([], T)
  | .label s => genStmt fn T s
  | .ifThen c s => ((T.source c).1 ++ (genStmt fn (T.source c).2 s).1, (genStmt fn (T.source c).2 s).2)
  | .ifElse c s t =>
    let r := genStmt fn (T.source c).2 s
    ((T.source c).1 ++ r.1 ++ (genStmt fn r.2 t).1, (genStmt fn r.2 t).2)
  | .whileLoop c s => ((T.source c).1 ++ (genStmt fn (T.source c).2 s).1, (genStmt fn (T.source c).2 s).2)
  | .doLoop s c =>
    let r := genStmt fn T s
    (r.1 ++ (r.2.source c).1, (r.2.source c).2)
  | .forLoop init cond post s =>
    let i := T.forInit fn init
    let c := i.2.later i.2 cond
    let b := genStmt fn c.2 s
    let p := i.2.later b.2 post
    (i.1 ++ cond.toList.flatMap i.2.parse ++ post.toList.flatMap i.2.parse ++ c.1 ++ b.1 ++ p.1, p.2.restore T)
  | .switch c ss => ((T.source c).1 ++ (genStmts fn (T.source c).2 ss).1, (genStmts fn (T.source c).2 ss).2)
  | .case e => (T.constant e, T)

/-- Statements one after the other. -/
def genStmts (fn : List Byte) (T : Tables) : List Stmt → List (Option Entity) × Tables
  | [] => ([], T)
  | s :: ss => ((genStmt fn T s).1 ++ (genStmts fn (genStmt fn T s).2 ss).1, (genStmts fn (genStmt fn T s).2 ss).2)

end

/-- `parse_program` on one declaration: what the names in a function's body are found to be, and the tables it leaves. -/
def genTop (T : Tables) : TopDecl → List (Option Entity) × Tables
  | .vars es xs => ([], xs.foldl Tables.addGlobal (T.addEnums es))
  | .types es => ([], T.addEnums es)
  | .proto es x => ([], (T.addEnums es).addFunc x)
  | .func es x pes ps body =>
    let S := ((T.addEnums es).addEnums pes).addFunc x
    genStmt (stored x) (ps.foldl (fun S p => S.addLocal p.1 p.2) { S with locals := [] }) body

/-- The tables at the start of a unit: `compile_obj` empties them. -/
def Tables.empty (statics : Nat) : Tables := ⟨[], [], [], [], statics⟩

end MiniOs32
