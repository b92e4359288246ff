import MiniOs32.Cc.Code

/-!
# The compiler: what code is made of

The code of a tree, rule by rule. `Emits ok` holds of a job and its code where the job is generated and every use of a kind that
`ok` asks about is one it allows: the test of a value against zero, a direct call, an indirect one and a return without a value. Whatever is proved of all
generated code is proved rule by rule.
-/

namespace MiniOs32

/-- What is asked of code: the type of a value that is tested, the bytes and the result of a direct call, the number of arguments
of an indirect one, the type of a function that returns without a value. -/
inductive Use where
  | test (t : CType)
  | direct (name : List Byte) (bytes : U32) (ret : CType)
  | indirect (argc : Nat)
  | bare (ret : CType)

/-- What code is generated for: a tree; a condition, with the label for a false one; an operand of `&&` or `||`, with both
labels; the arguments of a call. -/
inductive Job where
  | tree (m : GenMode) (e : Node)
  | cond (no : Nat) (e : Node)
  | operand (yes no : Nat) (e : Node)
  | args (params : Option (List CType)) (as : List Node)

/-- The code behind the base and the index of an array. -/
def indexCode (T : CodeEnv) (b it : CType) : List Insn :=
  (if it.isFloat then convStackToInt 0#32 else []) ++ scaleTop (T.size b) ++ indexAddr

/-- The code behind the labels of a logical operator whose value is asked for. -/
def logicalEnd (yes no done : Nat) : Code :=
  labelAt yes ++ ops [.pushImm 1#32] ++ jumpTo done ++ labelAt no ++ ops [.pushImm 0#32] ++ labelAt done

/-- The code of a job: the type of what it leaves on the stack, the bytes it leaves there, the code and the tables behind it. -/
inductive Emits (ok : Use → Prop) : CodeEnv → Job → CType → U32 → Code → CodeEnv → Prop
  | num {T : CodeEnv} (v : U32) : Emits ok T (.tree .value (.num v)) (.int false) 4#32 (ops [.pushImm v]) T
  | fnum {T : CodeEnv} (v : U32) : Emits ok T (.tree .value (.fnum v)) .float 4#32 (ops [.pushImm v]) T
  | str {T : CodeEnv} (text : List Byte) :
      Emits ok T (.tree .value (.str text)) (.ptr (.char false)) 4#32 (ops [.movAddr (.str T.rodata), .push .eax])
        { T with rodata := T.rodata + text.length + 1 }
  | var {T : CodeEnv} (m : GenMode) {x : List Byte} {s : CSym} (hs : T.findSym x = some s) :
      Emits ok T (.tree m (.var x)) (m.finish s.type (ops (loadAddr s))).1 4#32 (m.finish s.type (ops (loadAddr s))).2 T
  | func {T : CodeEnv} (m : GenMode) {x : List Byte} {f : Func} (hs : T.findSym x = none) (hf : T.findFunc x = some f) :
      Emits ok T (.tree m (.var x)) m.funcType 4#32 (ops [.movAddr (.func x), .push .eax]) T
  | deref {T T₁ : CodeEnv} (m : GenMode) {e : Node} {pt b : CType} {c : Code} (he : Emits ok T (.tree .value e) pt 4#32 c T₁)
      (hb : pt.decay.ptrBase = some b) : Emits ok T (.tree m (.deref e)) (m.finishDeref b c).1 4#32 (m.finishDeref b c).2 T₁
  | index {T T₁ T₂ : CodeEnv} (m : GenMode) {e i : Node} {bt b it : CType} {c ci : Code}
      (he : Emits ok T (.tree .value e) bt 4#32 c T₁) (hb : bt.decay.ptrBase = some b)
      (hi : Emits ok T₁ (.tree .value i) it 4#32 ci T₂) :
      Emits ok T (.tree m (.index e i)) (m.finish b (c ++ ci ++ ops (indexCode T₂ b it))).1 4#32
        (m.finish b (c ++ ci ++ ops (indexCode T₂ b it))).2 T₂
  | dot {T T₁ : CodeEnv} (m : GenMode) {e : Node} {x : List Byte} {bt : CType} {f : FieldSlot} {c : Code}
      (he : Emits ok T (.tree .addr e) bt 4#32 c T₁) (hf : T₁.findField bt x = some f) :
      Emits ok T (.tree m (.dot e x)) (m.finish f.type (c ++ ops (fieldAddr f.offset))).1 4#32
        (m.finish f.type (c ++ ops (fieldAddr f.offset))).2 T₁
  | arrow {T T₁ : CodeEnv} (m : GenMode) {e : Node} {x : List Byte} {pt bt : CType} {f : FieldSlot} {c : Code}
      (he : Emits ok T (.tree .value e) pt 4#32 c T₁) (hb : pt.decay.ptrBase = some bt) (hf : T₁.findField bt x = some f) :
      Emits ok T (.tree m (.arrow e x)) (m.finish f.type (c ++ ops (fieldAddr f.offset))).1 4#32
        (m.finish f.type (c ++ ops (fieldAddr f.offset))).2 T₁
  | addr {T T₁ : CodeEnv} {e : Node} {t : CType} {c : Code} (he : Emits ok T (.tree .addr e) t 4#32 c T₁) :
      Emits ok T (.tree .value (.addr e)) (.ptr t) 4#32 c T₁
  | assign {T T₁ T₂ : CodeEnv} {a b : Node} {lt rt : CType} {ca cb : Code} (ha : Emits ok T (.tree .addr a) lt 4#32 ca T₁)
      (hb : Emits ok T₁ (.tree .value b) rt 4#32 cb T₂) (hl : lt.isArray = false)
      (hr : lt.isRecord = true → rt.isRecord = true ∧ T₂.size rt = T₂.size lt) (ht : lt = .bool → ok (.test rt)) :
      Emits ok T (.tree .value (.assign a b)) (if lt.isRecord then lt else lt.promote) 4#32
        (ca ++ cb ++ ops (assignCode T₂ lt rt)) T₂
  | condJumps {T T₁ : CodeEnv} {no : Nat} {e : Node} {t : CType} {c : Code} (hl : e.isLogical = true)
      (he : Emits ok T.newLabel.2 (.tree (.jumps T.labels no) e) t 0#32 c T₁) :
      Emits ok T (.cond no e) .void 0#32 (c ++ labelAt T.labels) T₁
  | condValue {T T₁ : CodeEnv} {no : Nat} {e : Node} {t : CType} {c : Code} (hl : e.isLogical = false)
      (he : Emits ok T (.tree .value e) t 4#32 c T₁) (ht : ok (.test t)) :
      Emits ok T (.cond no e) .void 0#32 (c ++ condJump t no) T₁
  | tern {T T₁ T₂ T₃ : CodeEnv} {e a b : Node} {ta tb lt rt : CType} {cc ca cb : Code} (hta : inferType T.env a = some ta)
      (htb : inferType T.env b = some tb) (hr : (ta.decay.isRecord || tb.decay.isRecord) = false)
      (hc : Emits ok T.newLabel.2.newLabel.2 (.cond T.labels e) .void 0#32 cc T₁)
      (ha : Emits ok T₁ (.tree .value a) lt 4#32 ca T₂) (hb : Emits ok T₂ (.tree .value b) rt 4#32 cb T₃) :
      Emits ok T (.tree .value (.tern e a b)) (ternaryCommonType ta tb) 4#32
        (cc ++ ca ++ ops (convStack lt (ternaryCommonType ta tb) 0#32) ++ jumpTo (T.labels + 1) ++ labelAt T.labels ++ cb ++
          ops (convStack rt (ternaryCommonType ta tb) 0#32) ++ labelAt (T.labels + 1)) T₃
  | operandJumps {T T₁ : CodeEnv} {yes no : Nat} {e : Node} {t : CType} {c : Code} (hl : e.isLogical = true)
      (he : Emits ok T (.tree (.jumps yes no) e) t 0#32 c T₁) : Emits ok T (.operand yes no e) .void 0#32 c T₁
  | operandValue {T T₁ : CodeEnv} {yes no : Nat} {e : Node} {t : CType} {c : Code} (hl : e.isLogical = false)
      (he : Emits ok T (.tree .value e) t 4#32 c T₁) (ht : ok (.test t)) :
      Emits ok T (.operand yes no e) .void 0#32 (c ++ condJump t no ++ jumpTo yes) T₁
  | logical {T T₁ T₂ : CodeEnv} (yes no : Nat) (or : Bool) {a b : Node} {ca cb : Code}
      (ha : Emits ok T.newLabel.2 (.operand (if or then yes else T.labels) (if or then T.labels else no) a) .void 0#32 ca T₁)
      (hb : Emits ok T₁ (.operand yes no b) .void 0#32 cb T₂) :
      Emits ok T (.tree (.jumps yes no) (.logical or a b)) (.int false) 0#32 (ca ++ labelAt T.labels ++ cb) T₂
  | logicalValue {T T₁ : CodeEnv} {or : Bool} {a b : Node} {c : Code}
      (he : Emits ok T.newLabel.2.newLabel.2 (.tree (.jumps T.labels (T.labels + 1)) (.logical or a b)) (.int false) 0#32 c T₁) :
      Emits ok T (.tree .value (.logical or a b)) (.int false) 4#32 (c ++ logicalEnd T.labels (T.labels + 1) T₁.labels) T₁.newLabel.2
  | vaArg {T : CodeEnv} {x : List Byte} {ty : CType} {s : CSym} (ht : (ty.isRecord || ty.isArray) = false)
      (hs : T.findSym x = some s) :
      Emits ok T (.tree .value (.vaArg (.var x) ty)) ty 4#32 (ops (vaArgCode s ty (T.vaStep ty))) T
  | vaStart {T : CodeEnv} {callee : Node} {x y : List Byte} {ap last : CSym} (hx : callee.name = asciiBytes "va_start")
      (ha : T.findSym x = some ap) (hl : T.findSym y = some last) :
      Emits ok T (.tree .value (.call callee [.var x, .var y])) (.int false) 4#32 (ops (vaStart ap last (T.vaStep last.type))) T
  | vaEnd {T : CodeEnv} {callee : Node} (args : List Node) (hx : callee.name = asciiBytes "va_end") :
      Emits ok T (.tree .value (.call callee args)) (.int false) 4#32 (ops [.movImm .eax 0#32, .push .eax]) T
  | syscall {T T₁ : CodeEnv} {callee : Node} {args : List Node} {n : U32} {c : Code} (hx : isSyscall callee.name = true)
      (hn : syscallArgcOk callee.name args.length = true) (ha : Emits ok T (.args none args) .void n c T₁) :
      Emits ok T (.tree .value (.call callee args)) (.int false) 4#32 (c ++ ops (syscallCode callee.name args.length)) T₁
  | indirect {T T₁ T₂ : CodeEnv} {callee : Node} {args : List Node} {n : U32} {t : CType} {c cf : Code}
      (hv : callee.name ≠ asciiBytes "va_start" ∧ callee.name ≠ asciiBytes "va_end") (hx : isSyscall callee.name = false)
      (hi : T.env.indirect callee = true) (ha : Emits ok T (.args none args) .void n c T₁)
      (hc : Emits ok T₁ (.tree .value callee) t 4#32 cf T₂) (hu : ok (.indirect args.length)) :
      Emits ok T (.tree .value (.call callee args)) (.int false) 4#32 (c ++ cf ++ ops (callEaxCode args.length)) T₂
  | direct {T T₁ : CodeEnv} {callee : Node} {args : List Node} {f : Func} {n : U32} {c : Code}
      (hv : callee.name ≠ asciiBytes "va_start" ∧ callee.name ≠ asciiBytes "va_end") (hx : isSyscall callee.name = false)
      (hi : T.env.indirect callee = false) (hf : T.findFunc callee.name = some f)
      (hn : f.declared = true → if f.isVarargs then f.params.length ≤ args.length else args.length = f.params.length)
      (ha : Emits ok T (.args (some f.params) args) .void n c T₁) (hu : ok (.direct callee.name n f.ret)) :
      Emits ok T (.tree .value (.call callee args)) (callType f.ret) 4#32 (c ++ ops (callCode callee.name n f.ret)) T₁
  | undeclared {T T₁ : CodeEnv} {callee : Node} {args : List Node} {n : U32} {c : Code}
      (hv : callee.name ≠ asciiBytes "va_start" ∧ callee.name ≠ asciiBytes "va_end") (hx : isSyscall callee.name = false)
      (hi : T.env.indirect callee = false) (hf : T.findFunc callee.name = none)
      (ha : Emits ok (T.addFunc callee.name) (.args (some []) args) .void n c T₁)
      (hu : ok (.direct callee.name n (.int false))) :
      Emits ok T (.tree .value (.call callee args)) (.int false) 4#32 (c ++ ops (callCode callee.name n (.int false))) T₁
  | cast {T T₁ : CodeEnv} (ty : CType) {e : Node} {t : CType} {c : Code} (he : Emits ok T (.tree .value e) t 4#32 c T₁)
      (ht : ty = .bool → ok (.test t)) : Emits ok T (.tree .value (.cast ty e)) ty 4#32 (c ++ ops (castCode t ty)) T₁
  | unary {T T₁ : CodeEnv} {op : UnaryOp} {e : Node} {t ty : CType} {c : Code} (he : Emits ok T (.tree .value e) t 4#32 c T₁)
      (hu : genUnary op t = some ty) (ht : op = .not → ok (.test t)) :
      Emits ok T (.tree .value (.unary op e)) ty 4#32 (c ++ ops (unaryCode op t)) T₁
  | bin {T T₁ T₂ : CodeEnv} {op : BinOp} {a b : Node} {lt rt ty : CType} {ca cb : Code}
      (ha : Emits ok T (.tree .value a) lt 4#32 ca T₁) (hb : Emits ok T₁ (.tree .value b) rt 4#32 cb T₂)
      (ht : genBin op lt.decay.promote rt.decay.promote b.isZero = some ty) :
      Emits ok T (.tree .value (.bin op a b)) ty 4#32
        (ca ++ cb ++ ops (binCode T₂ op lt.decay.promote rt.decay.promote)) T₂
  | argsNil {T : CodeEnv} (ps : Option (List CType)) : Emits ok T (.args ps []) .void 0#32 [] T
  | argsCons {T T₁ T₂ : CodeEnv} {ps : Option (List CType)} {a : Node} {as : List Node} {n : U32} {t : CType} {cs c : Code}
      (hs : Emits ok T (.args (ps.map List.tail) as) .void n cs T₁) (ha : Emits ok T₁ (.tree .value a) t 4#32 c T₂)
      (ht : argAccepted T₂.env t (ps.bind List.head?) = true) :
      Emits ok T (.args ps (a :: as)) .void (n + (argCode T₂ t (ps.bind List.head?)).2)
        (cs ++ c ++ ops (argCode T₂ t (ps.bind List.head?)).1) T₂

end MiniOs32
