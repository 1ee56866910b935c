import BitKeeper.Weave.Model

/-!
A new delta in the weave. `weaveMove` copies the weave, `weaveDiffs` writes the blocks of the new
delta in between, and `delta_write` does that a second time when the last delete would have left a
line without the newline that it had.
-/

namespace BitKeeper.Weave

open Bytes

inductive Failure where
  | assertion
  /-- "Unexpected EOF" -/
  | eof
  /-- "Must use RCS diff format" -/
  | format
  /-- "file format is ascii, delta is binary" -/
  | binary
  /-- The fixed delete would have to be fixed again. -/
  | loop
deriving DecidableEq, Repr

def check (holds : Bool) : Except Failure Unit := if holds then .ok () else .error .assertion

/-- `struct fweave`.  The first line of `weave` is `buf`, the others are still to
be read. -/
structure Fweave where
  weave : List Line
  out : List Line := []
  wmap : Nat → Nat := id
  state : List Entry := []
  slist : Nat → Bool
  sum : UInt16 := 0
  print : Nat := 0
  line : Nat := 0
  cur : Nat := 0
  noLf : Nat := 0

structure Flags where
  fast : Bool := false
  before : Bool := false
  clrlf : Bool := false
  del : Bool := false
  fin : Bool := false

def wmBeforeDel : Flags := { before := true }
def wmAfterDel : Flags := { del := true }
def wmAdd : Flags := { clrlf := true }
def wmFinish : Flags := { fin := true }

def strCksum (buf : Bytes) : UInt16 := buf.foldl (fun sum c => sum + c.toUInt16) 0

def Fweave.put (w : Fweave) (line : Line) : Fweave := { w with out := w.out ++ [line] }

/-- The label `end`: `buf` is the first of `rest`. -/
def Fweave.stop (w : Fweave) (flags : Flags) (print : Nat) (rest : List Line) : Fweave := { w with
    weave := rest
    print := print
    noLf := if !flags.fast && flags.clrlf then 0 else w.noLf
    sum := if !flags.fast && flags.fin && (if flags.clrlf then 0 else w.noLf) != 0 then
      w.sum - 10 else w.sum }

/-- A data line that is copied in the first loop. -/
def Fweave.copyData (w : Fweave) (flags : Flags) (print : Nat) (buf : Bytes) : Fweave := { w with
    out := w.out ++ [.data buf]
    line := if print ≠ 0 then w.line + 1 else w.line
    noLf := if print ≠ 0 ∧ flags.del = false then print else if w.noLf = w.cur then 0 else w.noLf
    sum := if print ≠ 0 ∧ flags.del = false then
      w.sum + strCksum buf + 10 - (if buf.head? = some cntlA then 1 else 0)
      else w.sum }

/-- `print` in a state, for fast patches without the deletes. -/
def Fweave.printed (w : Fweave) (flags : Flags) (state : List Entry) : Nat :=
  if flags.fast then if w.slist (whatstate state) then whatstate state else 0 else
    printstate w.slist state

/-- The loop at `after`: blocks of newer deltas are skipped. -/
def skipNewer (flags : Flags) (patchserial : Nat) :
    Nat → Nat → Fweave → List Line → Except Failure Fweave
  | _, print, w, [] => if w.state = [] then .ok (w.stop flags print []) else .error .eof
  | skipblock, print, w, .data buf :: rest =>
    if skipblock = 0 then .ok (w.stop flags print (.data buf :: rest))
    else if print ≠ 0 then .error .assertion
    else skipNewer flags patchserial skipblock print (w.put (.data buf)) rest
  | skipblock, print, w, .ctrl type number nonl :: rest =>
    if skipblock = 0 ∧ type = .del then .ok (w.stop flags print (.ctrl type number nonl :: rest))
    else if number = 0 ∨ patchserial = w.wmap number then .error .assertion
    else if w.wmap number < patchserial then .ok (w.stop flags print (.ctrl type number nonl :: rest))
    else if skipblock = w.wmap number ∧ type ≠ .fin then .error .assertion
    else
      match changestate type (w.wmap number) w.state with
      | none => .error .assertion
      | some state =>
        skipNewer flags patchserial
          (if skipblock = 0 then if type = .ins then w.wmap number else 0
            else if skipblock = w.wmap number then 0 else skipblock)
          (w.printed flags state) { w.put (.ctrl type (w.wmap number) nonl) with state := state } rest

/-- The first loop: up to the line `line`, or in front of it. -/
def seek (flags : Flags) (line patchserial : Nat) : Nat → Fweave → List Line → Except Failure Fweave
  | print, w, [] => if flags.fin ∧ whatstate w.state = 0 then .ok (w.stop flags print []) else
      .error .eof
  | print, w, buf :: rest =>
    if flags.fin = false ∧ line ≤ w.line then
      if flags.before then .error .assertion else skipNewer flags patchserial 0 print w (buf :: rest)
    else
      match buf with
      | .data text =>
        if print ≠ 0 ∧ flags.before then .ok (w.stop flags print (.data text :: rest))
        else seek flags line patchserial print (w.copyData flags print text) rest
      | .ctrl type number nonl =>
        if number = 0 ∨ patchserial = w.wmap number then .error .assertion
        else if flags.before ∧ print ≠ 0 ∧ type = .del ∧ patchserial < w.wmap number then
          .ok (w.stop flags print (.ctrl type number nonl :: rest))
        else
          match changestate type (w.wmap number) w.state with
          | none => .error .assertion
          | some state =>
            if flags.fast then
              seek flags line patchserial (w.printed flags state)
                { w.put (.ctrl type (w.wmap number) nonl) with state := state } rest
            else if w.noLf = w.wmap number ∧ type ≠ .fin then .error .assertion
            else
              seek flags line patchserial (w.printed flags state)
                { w.put (.ctrl type (w.wmap number) nonl) with
                  state := state
                  cur := whatstate state
                  noLf := if w.noLf = w.wmap number ∧ nonl = false then 0 else w.noLf } rest

/-- `weaveMove` behind the call for the line before. -/
def moveTo (w : Fweave) (line patchserial : Nat) (flags : Flags) : Except Failure Fweave :=
  if w.weave = [] then
    if flags.fin = false ∧ (flags.before = true ∨ (if flags.fast then line ≠ w.line else line ≠ 0))
      then .error .eof
    else .ok w
  else seek flags line patchserial w.print w w.weave

def weaveMove (w : Fweave) (line patchserial : Nat) (flags : Flags) : Except Failure Fweave :=
  if flags.before then do
    check (!flags.fin)
    let w ← moveTo w (line - 1) patchserial { flags with before := false }
    moveTo w line patchserial flags
  else moveTo w line patchserial flags

inductive What where
  | D
  | I
  | N
  | a
  | d
deriving DecidableEq, Repr

def What.ofLetter (c : UInt8) : Option What :=
  if c = 68 then some .D
  else if c = 73 then some .I
  else if c = 78 then some .N
  else if c = 97 then some .a
  else if c = 100 then some .d
  else none

structure Order where
  what : What
  place : Nat
  howmany : Nat

def scandiff (s : Bytes) : Option Order :=
  (s.head?.bind What.ofLetter).bind fun what =>
    (readDecimal s.tail).bind fun place =>
      (expect [32] place.2).bind fun s =>
        (readDecimal s).bind fun howmany =>
          if howmany.2 = [] then some ⟨what,place.1,howmany.1⟩ else none

/-- `fgetline`: newlines and carriage returns at the end are removed. -/
def fgetline (line : Bytes) : Bytes := line.rdropWhile fun c => c == cr || c == newline

structure Weaving where
  w : Fweave
  fixdel : Nat
  lastdel : Nat := 0
  noLf : Bool := false
  addthis : Option Bytes := none
  added : Nat := 0
  deleted : Nat := 0

def Fweave.doctrl (w : Fweave) (type : Kind) (serial : Nat) (nonl : Bool) : Fweave :=
  w.put (.ctrl type serial nonl)

def dupLine (v : Weaving) (w : Fweave) (place : Nat) : Except Failure (Option Bytes) :=
  if v.fixdel ≠ 0 ∧ v.fixdel = place then
    match w.weave with
    | .data buf :: _ => .ok (some buf)
    | _ => .error .assertion
  else .ok v.addthis

def weaveDeleteAt (d : Nat) (v : Weaving) (place howmany : Nat) : Except Failure Weaving := do
  let w ← weaveMove v.w place d wmBeforeDel
  let addthis ← dupLine v w place
  let w ← weaveMove (w.doctrl .del d false) (place + howmany - 1) d wmAfterDel
  .ok { v with w := w.doctrl .fin d false, addthis := addthis, deleted := v.deleted + howmany }

/-- The commands `d` and `D`: the `d` that has to be fixed starts a line earlier. -/
def weaveDelete (d : Nat) (v : Weaving) (what : What) (place howmany : Nat) :
    Except Failure Weaving :=
  if what = .d then
    if v.fixdel ≠ 0 ∧ v.fixdel = place then
      weaveDeleteAt d { v with lastdel := place, fixdel := v.fixdel - 1 } (place - 1) (howmany + 1)
    else weaveDeleteAt d { v with lastdel := place } place howmany
  else weaveDeleteAt d v place howmany

/-- One inserted line and `no_lf`; lines of a patch can be escaped, new lines lose carriage returns.
-/
def insertLine (patch : Bool) (noLf : Bool) (b : Bytes) : Bytes × Bool :=
  if patch then (if (chomp b).head? = some 92 then (chomp b).tail else chomp b,
    noLf || b.getLast? != some newline)
  else (dropCR (chomp b), (noLf || b.getLast? != some newline) && dropCR (chomp b) == chomp b)

/-- The lines of an insert, and the script behind them. -/
def insertLines (patch : Bool) : Nat → Weaving → List Bytes → Except Failure (Weaving × List Bytes)
  | 0, v, diffs => .ok (v, diffs)
  | _ + 1, _, [] => .error .eof
  | howmany + 1, v, b :: diffs =>
    if b.getLast? ≠ some newline ∧ (patch ∨ howmany ≠ 0) then .error .assertion
    else
      insertLines patch howmany
        { v with
          w := { v.w.put (.data (fixCntlA (insertLine patch v.noLf b).1)) with
            sum := v.w.sum + strCksum (insertLine patch v.noLf b).1 + 10 }
          noLf := (insertLine patch v.noLf b).2
          added := v.added + 1 } diffs

/-- The commands `a`, `I` and `N`. -/
def weaveInsert (d : Nat) (v : Weaving) (what : What) (place howmany : Nat) (diffs : List Bytes) :
    Except Failure (Weaving × List Bytes) := do
  let w ← weaveMove v.w place d wmAdd
  let inserted ← insertLines (what != .a) howmany
    { v with
      w := w.doctrl .ins d false
      lastdel := if what = .a then 0 else v.lastdel
      noLf := what == .N } diffs
  let v := inserted.1
  .ok ({ v with
    w := { v.w.doctrl .fin d v.noLf with sum := if v.noLf then v.w.sum - 10 else v.w.sum } },
      inserted.2)

/-- The commands in order; `fuel` is at least the number of lines. -/
def weaveCommands (d : Nat) : Nat → Weaving → List Bytes → Except Failure Weaving
  | _, v, [] => .ok v
  | 0, _, _ :: _ => .error .eof
  | fuel + 1, v, b :: diffs =>
    match scandiff (fgetline b) with
    | none => .error .format
    | some order =>
      if order.what = .d ∨ order.what = .D then do
        let v ← weaveDelete d v order.what order.place order.howmany
        weaveCommands d fuel v diffs
      else do
        let next ← weaveInsert d v order.what order.place order.howmany diffs
        weaveCommands d fuel next.1 next.2

/-- The line that the fixed delete took too much comes back as a new one. -/
def weaveAddthis (d : Nat) (v : Weaving) : Weaving := match v.addthis with
  | none => v
  | some text =>
    { v with
      w := { ((v.w.doctrl .ins d false).put (.data text)).doctrl .fin d false with
        sum := v.w.sum + strCksum text + 10 - (if text.head? = some cntlA then 1 else 0) }
      lastdel := 0
      addthis := none }

structure Woven where
  weave : List Line
  sum : UInt16
  added : Nat
  deleted : Nat
  same : Nat

def weaveDiffs (weave : List Line) (slist : Nat → Bool) (d : Nat) (diffs : List Bytes)
    (fixdelp : Nat) :
    Except Failure (Woven × Nat) := do
  let v ← weaveCommands d diffs.length
    { w := { weave := weave, slist := slist }, fixdel := fixdelp } diffs
  let v := weaveAddthis d v
  let w ← weaveMove v.w 0 0 wmFinish
  check (!v.noLf || (v.lastdel == 0 && v.w.line == w.line))
  let fix := v.lastdel != 0 && v.w.line == w.line && w.noLf != 0
  check (!fix || v.fixdel == 0)
  .ok (⟨w.out,w.sum,v.added,v.deleted,w.line - v.deleted⟩,
    if fix then v.lastdel else if v.fixdel ≠ 0 then 0 else fixdelp)

def binaryFiles : Bytes := [66,105,110,97,114,121,32,102,105,108,101,115,32]

def binaryCheck (m : Bytes) : Bool :=
  (decide (13 < m.length) && binaryFiles.isPrefixOf m) || m.contains 0

/-- The label `again`. -/
def deltaAgain (weave : List Line) (slist : Nat → Bool) (n : Nat) (diffs : List Bytes) :
    Nat → Nat → Except Failure Woven
  | 0, _ => .error .loop
  | fuel + 1, fixdel => do
      let done ← weaveDiffs weave slist n diffs fixdel
      if done.2 = 0 then .ok done.1 else deltaAgain weave slist n diffs fuel done.2

def deltaWrite (weave : List Line) (slist : Nat → Bool) (n : Nat) (diffs : Bytes) :
    Except Failure Woven :=
  if binaryCheck diffs then .error .binary else deltaAgain weave slist n (lines diffs) 2 0

/-- The weave `checkin` writes for a new file: the text is delta `n`, an empty block stands for 1.0
if there is one. -/
def checkin (text : Bytes) (n : Nat) (n0 : Bool) : List Line :=
  .ctrl .ins n false :: ((lines text).map fun line => .data (fixCntlA (dropCR (chomp line)))) ++
    .ctrl .fin n ((lines text).getLast?.any missesLf) ::
      (if n0 then [.ctrl .ins 1 false,.ctrl .fin 1 false] else [])

end BitKeeper.Weave
