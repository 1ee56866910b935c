import BitKeeper.Lib.Lines

/-!
The weave of a text file holds every line that any version ever had, between control lines that say
which delta inserted and which deltas deleted it. `get_reg` writes the lines that are there for a
set of active deltas; `_hasDiffs` compares the g.file with them on the way.
-/

namespace BitKeeper.Weave

open Bytes

/-! ### The lines of the weave -/

/-- The letter of a control line: `I`, `D` and the `E` that ends either. -/
inductive Kind where
  | ins
  | del
  | fin
deriving DecidableEq, Repr

/-- A line as `sccs_nextdata` returns it, data with its escape; `nonl` is the `N` behind the serial
of a control line. -/
inductive Line where
  | data (buf : Bytes)
  | ctrl (type : Kind) (serial : Nat) (nonl : Bool)
deriving DecidableEq, Repr

def cntlA : UInt8 := 1

/-- `fix_cntl_a`: a line that starts with a control-A gets another one. -/
def fixCntlA (buf : Bytes) : Bytes := if buf.head? = some cntlA then cntlA :: buf else buf

/-- `if (buf[0] == CNTLA_ESCAPE) buf++` -/
def unescape (buf : Bytes) : Bytes := if buf.head? = some cntlA then buf.tail else buf

theorem unescape_fixCntlA (buf : Bytes) : unescape (fixCntlA buf) = buf := by
  unfold fixCntlA unescape
  by_cases escaped : buf.head? = some cntlA
  · rw [if_pos escaped,if_pos (show (cntlA :: buf).head? = some cntlA from rfl)]
    rfl
  · rw [if_neg escaped,if_neg escaped]

/-! ### Where a line stands -/

/-- An open block: its serial, and if it is an insert (`SL_SER`, `SL_INS`). -/
structure Entry where
  ser : Nat
  ins : Bool
deriving DecidableEq, Repr

/-- The open blocks, the last of the array first. Those above a serial's place must be deletes, an
`E` must find its block. -/
def changestate (type : Kind) (serial : Nat) : List Entry → Option (List Entry)
  | [] => if type = .fin then none else some [⟨serial,decide (type = .ins)⟩]
  | e :: state =>
    if e.ser ≤ serial then
      if type = .fin then if e.ser = serial then some state else none
      else some (⟨serial,decide (type = .ins)⟩ :: e :: state)
    else if e.ins then none
    else (changestate type serial state).map (e :: ·)

/-- The insert block that the line is in, zero outside of all. -/
def whatstate : List Entry → Nat
  | [] => 0
  | e :: state => if e.ins then e.ser else whatstate state

/-- The same block if the line is there for the active deltas, zero if not. -/
def printstate (slist : Nat → Bool) : List Entry → Nat
  | [] => 0
  | e :: state =>
    if e.ins then if slist e.ser then e.ser else 0
    else if slist e.ser then 0 else printstate slist state

/-! ### `get_reg` -/

structure Get where
  out : Bytes := []
  state : List Entry := []
  print : Nat := 0
  lfPend : Nat := 0

/-- `fputs(eol, out)` for the line that waits for it. -/
def Get.endLine (eol : Bytes) (g : Get) : Get := { g with out := g.out ++ eol, lfPend := 0 }

def getLine (slist : Nat → Bool) (eol : Bytes) (g : Get) : Line → Option Get
  | .data buf =>
    if g.print = 0 then
      -- skipped data of the block that the last line came from
      some (if g.lfPend ≠ 0 ∧ g.lfPend = whatstate g.state then g.endLine eol else g)
    else
      let g := if g.lfPend ≠ 0 then g.endLine eol else g
      some { g with out := g.out ++ unescape buf, lfPend := g.print }
  | .ctrl type serial nonl =>
    let g :=
      if type = .fin ∧ g.lfPend = serial ∧ whatstate g.state = serial ∧
        nonl = false then g.endLine eol
      else g
    (changestate type serial g.state).map fun state =>
      { g with state := state, print := printstate slist state }

def eolOf (windows : Bool) : Bytes := if windows then [13,newline] else [newline]

/-- The text of an ASCII file for the active deltas `slist`. -/
def getReg (slist : Nat → Bool) (windows : Bool) (weave : List Line) : Option Bytes :=
  (weave.foldlM (getLine slist (eolOf windows)) {}).map Get.out

/-! ### `_hasDiffs` -/

inductive Stop where
  | assertion
  | ret (different : Int)
deriving DecidableEq, Repr

structure Compare where
  /-- The lines that `fgetln` has still to return. -/
  gfile : List Bytes
  state : List Entry := []
  print : Nat := 0
  lfPend : Nat := 0
  noLf : Bool := false

def cr : UInt8 := 13

/-- The carriage returns at the end are left out. -/
def dropCR (buf : Bytes) : Bytes := buf.rdropWhile (· == cr)

def chomp (line : Bytes) : Bytes := if line.getLast? = some newline then line.dropLast else line

/-- `no_lf` of a line of the g.file. -/
def missesLf (gline : Bytes) : Bool :=
  gline.getLast? != some newline && dropCR (chomp gline) == chomp gline

def sameLine (gline fbuf : Bytes) : Bool :=
  (dropCR fbuf).length == (dropCR (chomp gline)).length &&
    strncmp (dropCR fbuf).length (dropCR (chomp gline)) fbuf == 0

def compareLine (slist : Nat → Bool) (c : Compare) : Line → Except Stop Compare
  | .data buf =>
    if c.print = 0 then
      .ok (if c.lfPend ≠ 0 ∧ c.lfPend = whatstate c.state then { c with lfPend := 0 } else c)
    else
      match c.gfile with
      | [] => .error (.ret 1)
      | gline :: gfile =>
        if sameLine gline (unescape buf) then
          .ok { c with gfile := gfile, noLf := missesLf gline, lfPend := c.print }
        else .error (.ret 1)
  | .ctrl type serial nonl =>
    if type = .fin ∧ c.lfPend = serial ∧ whatstate c.state = serial ∧ nonl = false ∧ c.noLf then
      .error (.ret 1)
    else
      match changestate type serial c.state with
      | none => .error .assertion
      | some state =>
        .ok { c with
          state := state
          print := printstate slist state
          noLf := if type = .fin ∧ c.lfPend = serial ∧ whatstate c.state = serial ∧
            nonl then !c.noLf else c.noLf
          lfPend := if type = .fin ∧ c.lfPend = serial ∧ whatstate c.state = serial then 0 else
            c.lfPend }

def Compare.different (c : Compare) : Int := if c.noLf then 1 else if c.gfile = [] then 0 else 1

/-- How the loop and what stands behind it end. -/
def verdict : Except Stop Compare → Option Int
  | .ok c => some c.different
  | .error (.ret different) => some different
  | .error .assertion => none

structure Gfile where
  readable : Bool
  /-- Set for a symbolic link. -/
  symlink : Option Bytes
  /-- `_relativeName` of the path. -/
  relative : Option Bytes
  text : Bytes

structure Delta where
  symlink : Option Bytes
  pathname : Option Bytes

structure Pfile where
  mRev : Option Bytes := none
  iLst : Option Bytes := none
  xLst : Option Bytes := none

def moved (gfile : Gfile) (delta : Delta) : Bool :=
  gfile.relative.any fun r => delta.pathname.any fun path => path != r

/-- `_hasDiffs` of an ASCII file without keyword expansion; `serialmap` gives the active deltas of
the p.file, `none` is a failed assertion. -/
def hasDiffs (gfile : Option Gfile) (delta : Delta) (inex : Bool) (pf : Pfile)
    (serialmap : Pfile → Nat → Bool) (weave : List Line) : Option Int :=
  match gfile with
  | none => some 0
  | some gfile =>
    if !gfile.readable then some (-1)
    else if inex && (pf.mRev.isSome || pf.iLst.isSome || pf.xLst.isSome) then some 2
    else
      match gfile.symlink with
      | some symlink => some (if delta.symlink = some symlink then 0 else 1)
      | none =>
        if moved gfile delta then some 1
        else verdict (weave.foldlM (compareLine (serialmap pf)) { gfile := lines gfile.text })

end BitKeeper.Weave
