import MiniOs32.Cc.Process
import MiniOs32.Lemmas.CondText

/-!
# C's conditional inclusion

A source whose conditional directives nest is a tree: lines of text, control lines and sections, and a section has a group for
its condition, groups for its `#elif` and `#else` lines, and an `#endif`. C selects one group of a section at most, and only the
lines of selected groups are emitted or executed; all others are passed over. `PpGroup.run` says so for the operations of the
compiler on a line of text and on a control line.
-/

namespace MiniOs32

/-! ## Lines -/

/-- The spaces before and behind the `#` of a directive. -/
structure Hash where
  lead : Spaces
  mid : Spaces

/-- A directive with its keyword and what stands behind it. -/
def Hash.line (h : Hash) (word : String) (arg : List Byte) : List Byte :=
  h.lead.val ++ Char.byte '#' :: (h.mid.val ++ (asciiBytes word ++ arg))

/-- A name behind a keyword, and the rest of the line. -/
structure NameArg where
  sp : Spaces
  id : CName
  rest : List Byte
  sp_ne : sp.val ≠ []
  rest_end : TokenEnd rest

/-- Its text. -/
def NameArg.text (a : NameArg) : List Byte := a.sp.val ++ (a.id.val ++ a.rest)

/-- What stands behind a keyword that no name goes on from. -/
def Arg : Type := { arg : List Byte // TokenEnd arg }

/-- A control line. -/
inductive Control where
  | define (h : Hash) (a : NameArg)
  | undef (h : Hash) (a : NameArg)
  | incl (h : Hash) (arg : Arg)

/-- The line of a control. -/
def Control.line : Control → List Byte
  | .define h a => h.line "define" a.text
  | .undef h a => h.line "undef" a.text
  | .incl h arg => h.line "include" arg.val

/-- The line that opens a section. -/
inductive CondHead where
  | ifdef (h : Hash) (a : NameArg)
  | ifndef (h : Hash) (a : NameArg)
  | cond (h : Hash) (arg : Arg)

/-- Its line. -/
def CondHead.line : CondHead → List Byte
  | .ifdef h a => h.line "ifdef" a.text
  | .ifndef h a => h.line "ifndef" a.text
  | .cond h arg => h.line "if" arg.val

mutual

/-- A group of lines, from its first line on. -/
inductive PpGroup where
  | nil
  | text (line : List Byte) (ht : (ppExprSkip line).head? ≠ some (Char.byte '#')) (rest : PpGroup)
  | control (c : Control) (rest : PpGroup)
  | sect (head : CondHead) (group : PpGroup) (tail : PpTail) (rest : PpGroup)

/-- The rest of a section, from behind a group on. -/
inductive PpTail where
  | endif (h : Hash) (arg : Arg)
  | els (h : Hash) (arg : Arg) (group : PpGroup) (h' : Hash) (arg' : Arg)
  | elif (h : Hash) (arg : Arg) (group : PpGroup) (tail : PpTail)

end

mutual

/-- The lines of a group. -/
def PpGroup.lines : PpGroup → List (List Byte)
  | .nil => []
  | .text line _ rest => line :: rest.lines
  | .control c rest => c.line :: rest.lines
  | .sect head group tail rest => head.line :: (group.lines ++ (tail.lines ++ rest.lines))

/-- The lines of the rest of a section. -/
def PpTail.lines : PpTail → List (List Byte)
  | .endif h arg => [h.line "endif" arg.val]
  | .els h arg group h' arg' => h.line "else" arg.val :: (group.lines ++ [h'.line "endif" arg'.val])
  | .elif h arg group tail => h.line "elif" arg.val :: (group.lines ++ tail.lines)

end

mutual

/-- How deep the sections of a group nest. -/
def PpGroup.depth : PpGroup → Nat
  | .nil => 0
  | .text _ _ rest => rest.depth
  | .control _ rest => rest.depth
  | .sect _ group tail rest => max (1 + max group.depth tail.depth) rest.depth

/-- How deep the sections in the rest of a section nest. -/
def PpTail.depth : PpTail → Nat
  | .endif _ _ => 0
  | .els _ _ group _ _ => group.depth
  | .elif _ _ group tail => max group.depth tail.depth

end

/-! ## Selection -/

/-- What C knows on the way: the state of the compiler outside the section at hand, the names that are defined, and the numbers of
the lines that were emitted or executed. -/
structure CView where
  s : PpState
  defined : List Byte → Bool
  done : List Nat

/-- Lines that are passed over. -/
def CView.pass (v : CView) (n : Nat) : CView := { v with s := { v.s with line := v.s.line + n } }

section

variable (env : PpEnv) (filename : List Byte) (outMax : Nat) (deepest : Bool)
  (sub : Preproc → List Byte → List Byte → Nat → Except PpFail (Preproc × List Byte))

/-- A selected line of text is emitted. -/
def CView.emit (v : CView) (line : List Byte) : Except PpFail CView :=
  (ppText filename outMax v.s line).map fun s => { v with s := s, done := v.done ++ [v.s.line] }

/-- A selected control line is executed. Behind an included file those names are defined that are in the table then. -/
def CView.exec (v : CView) : Control → Except PpFail CView
  | .define _ a => .ok
      { s := { v.s with pp := ppDefine v.s.pp (ppReadMacro (a.id.val ++ a.rest)), line := v.s.line + 1 }
        defined := fun n => decide (n = a.id.val) || v.defined n
        done := v.done ++ [v.s.line] }
  | .undef _ a => .ok
      { s := { v.s with pp := ppUndef v.s.pp a.id.val, line := v.s.line + 1 }
        defined := fun n => decide (n ≠ a.id.val) && v.defined n
        done := v.done ++ [v.s.line] }
  | .incl _ arg =>
    (ppInclude env filename outMax deepest sub v.s arg.val).map fun s =>
      { s := s, defined := fun n => (ppFindMacro s.pp n).isSome, done := v.done ++ [v.s.line] }

/-- Whether the condition that opens a section holds. -/
def CondHead.holds (v : CView) : CondHead → Bool
  | .ifdef _ a => v.defined a.id.val
  | .ifndef _ a => !v.defined a.id.val
  | .cond _ arg => env.evalIf v.s.pp arg.val

mutual

/-- A selected group. -/
def PpGroup.run : PpGroup → CView → Except PpFail CView
  | .nil, v => .ok v
  | .text line _ rest, v => do
    let v ← v.emit filename outMax line
    rest.run v
  | .control c rest, v => do
    let v ← v.exec env filename outMax deepest sub c
    rest.run v
  | .sect head group tail rest, v =>
    if head.holds env v then do
      let v ← group.run (v.pass 1)
      rest.run (v.pass tail.lines.length)
    else do
      let v ← tail.run (v.pass (1 + group.lines.length))
      rest.run v

/-- The rest of a section none of whose groups has been selected yet. -/
def PpTail.run : PpTail → CView → Except PpFail CView
  | .endif _ _, v => .ok (v.pass 1)
  | .els _ _ group _ _, v => do
    let v ← group.run (v.pass 1)
    return v.pass 1
  | .elif _ arg group tail, v =>
    if env.evalIf v.s.pp arg.val then do
      let v ← group.run (v.pass 1)
      return v.pass tail.lines.length
    else tail.run (v.pass (1 + group.lines.length))

end

end

end MiniOs32
