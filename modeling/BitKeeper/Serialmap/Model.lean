import BitKeeper.Symdiff.Model
import BitKeeper.Lib.Lines

/-!
The serial map of a delta: which deltas are active in it. Includes and excludes are lists of
revisions. The oldest delta is not visited by `serialmap` and keeps its raw bits.
-/

namespace BitKeeper.Serialmap

open Symdiff (Sfile Clude Byte)
open Bytes Function

/-! ### Revisions -/

structure Rev where
  r0 : Nat
  r1 : Nat
  r2 : Nat
  r3 : Nat
deriving DecidableEq, Repr

/-- A file with the revisions of its deltas, all different; a revision off a branch has two numbers.
-/
structure File extends Sfile where
  rev : Nat → Rev
  /-- The delta of a symbol. -/
  findSym : Bytes → Nat
  /-- `findrev(s, 0)`. -/
  newest : Nat
  rev_trunk : ∀ d, (rev d).r2 = 0 → (rev d).r3 = 0
  rev_inj : ∀ d ∈ graph.serials, ∀ e ∈ graph.serials, graph.tag d = false → graph.tag e = false →
    rev d = rev e → d = e

def dot : UInt8 := 46

def comma : UInt8 := 44

def dash : UInt8 := 45

def plus : UInt8 := 43

def delta_rev (r : Rev) : Bytes :=
  if r.r2 ≠ 0 then
    decimal r.r0 ++ dot :: (decimal r.r1 ++ dot :: (decimal r.r2 ++ dot :: decimal r.r3))
  else decimal r.r0 ++ dot :: decimal r.r1

def atoi_p (s : Bytes) : Nat × Bytes := (readDecimal s).getD (0, s)

/-- The numbers of a text behind which the others stay zero. -/
def scanrev (s : Bytes) : Rev :=
  if s.all (fun c => isDigit c || c == dot) = false then ⟨0,0,0,0⟩
  else
    let a := atoi_p s
    if a.2.head? ≠ some dot then ⟨a.1,0,0,0⟩
    else
      let b := atoi_p a.2.tail
      if b.2.head? ≠ some dot then ⟨a.1,b.1,0,0⟩
      else
        let c := atoi_p b.2.tail
        if c.2.head? ≠ some dot then ⟨a.1,b.1,c.1,0⟩ else ⟨a.1,b.1,c.1,(atoi_p c.2.tail).1⟩

/-- The delta of a revision, zero if there is none. -/
def rfind (s : File) (rev : Bytes) : Nat :=
  if rev.head?.any isDigit then
    (s.graph.serials.reverse.find? fun d => !s.graph.tag d && s.rev d == scanrev rev).getD 0
  else s.findSym rev

/-! ### Lists of revisions -/

/-- The parents from `d` down to `stop`. -/
def chain (g : Graph) (stop : Nat) : Nat → Nat → Option (List Nat)
  | 0, _ => none
  | fuel + 1, d =>
    if d = 0 then none else if d = stop then some [d] else
      (chain g stop fuel (g.parent d)).map (d :: ·)

def oneRev (s : File) (rev : Bytes) : Nat := if rev = [plus] then s.newest else rfind s rev

/-- What `walkList` returns until zero, and its error: a list is cut at commas, an element with a
dash is a range. -/
def walkList (s : File) : List Bytes → List Nat × Nat
  | [] => ([], 0)
  | text :: rest =>
    if dash ∈ text then
      let low := text.takeWhile (· ≠ dash)
      let high := (text.dropWhile (· ≠ dash)).tail
      if dash ∈ high then ([], 1)
      else
        let d := oneRev s high
        if rfind s low = 0 ∨ d = 0 then ([], 2)
        else
          match chain s.graph (rfind s low) (d + 1) d with
          | none => ([], 2)
          | some path => (path ++ (walkList s rest).1, (walkList s rest).2)
    else
      let d := oneRev s text
      if d = 0 then ([], 0) else (d :: (walkList s rest).1, (walkList s rest).2)

def revs (s : File) : Option Bytes → List Nat × Nat
  | none => ([], 0)
  | some list => walkList s (list.splitOn comma)

/-! ### The map -/

def S_INC : Byte := 1#8

def S_EXCL : Byte := 2#8

def S_PAR : Byte := 4#8

def orAt (slist : Nat → Byte) (d : Nat) (bits : Byte) : Nat → Byte :=
  update slist d (slist d ||| bits)

def ancestry (s : Sfile) (t : Nat) (slist : Nat → Byte) : Nat → Byte :=
  if slist t &&& S_PAR ≠ 0 ∧ s.graph.parent t ≠ 0 then
    let slist := orAt slist (s.graph.parent t) S_PAR
    if s.bkmerge = true ∧ s.graph.merge t ≠ 0 then orAt slist (s.graph.merge t) S_PAR else slist
  else slist

/-- An ancestor that is not excluded, or included. -/
def isActive (bits : Byte) : Bool := bits &&& (S_PAR ||| S_EXCL) == S_PAR || bits &&& S_INC != 0

def noteClude (slist : Nat → Byte) (c : Clude) : Nat → Byte :=
  if slist c.serial &&& (S_INC ||| S_EXCL) ≠ 0 then slist else
    orAt slist c.serial (if c.plus then S_INC else S_EXCL)

def mapStep (s : Sfile) (t : Nat) (slist : Nat → Byte) : Nat → Byte :=
  if s.graph.tag t then slist
  else
    let slist := ancestry s t slist
    if isActive (slist t) then (s.cludes t).foldl noteClude (update slist t 1)
    else update slist t 0

/-- The loop from delta `t` down to the delta after the oldest. -/
def mapFrom (s : Sfile) : Nat → (Nat → Byte) → Nat → Byte
  | 0, slist => slist
  | 1, slist => slist
  | t + 2, slist => mapFrom s (t + 1) (mapStep s (t + 2) slist)

/-- The excludes; a delta that is included too is an error. -/
def excludeAll (slist : Nat → Byte) : List Nat → Except Nat (Nat → Byte)
  | [] => .ok slist
  | t :: rest => if slist t = S_INC then .error 3 else excludeAll (update slist t S_EXCL) rest

def newestOf (start : Nat) (list : List Nat) : Nat :=
  list.foldl (fun start t => if t > start then t else start) start

def serialmap (s : File) (d m : Nat) (iLst xLst : Option Bytes) : Except Nat (Nat → Byte) := do
  let inc := revs s iLst
  if inc.2 ≠ 0 then throw inc.2
  let exc := revs s xLst
  let slist ← excludeAll (inc.1.foldl (fun slist t => update slist t S_INC) fun _ => 0) exc.1
  if exc.2 ≠ 0 then throw exc.2
  let slist := orAt slist d S_PAR
  let slist := if m = 0 then slist else orAt slist m S_PAR
  return mapFrom s.toSfile (newestOf (newestOf (max d m) inc.1) exc.1) slist

def seedmap (s : Sfile) (list : List Nat) : Nat → Byte :=
  mapFrom s (newestOf 0 list) (list.foldl (fun slist d => orAt slist d S_PAR) fun _ => 0)

/-! ### From a map to lists -/

structure Squeeze where
  slist : Nat → Byte
  incser : List Nat
  excser : List Nat

def compressStep (s : Sfile) (set : Nat → Byte) (t : Nat) (st : Squeeze) : Squeeze :=
  if s.graph.tag t then st
  else
    let slist := ancestry s t st.slist
    let active := isActive (slist t)
    if set t = 0 then
      { st with slist := slist, excser := if active then st.excser ++ [t] else st.excser }
    else
      { slist := (s.cludes t).foldl noteClude slist
        incser := if active then st.incser else st.incser ++ [t]
        excser := st.excser }

def compressFrom (s : Sfile) (set : Nat → Byte) : Nat → Squeeze → Squeeze
  | 0, st => st
  | t + 1, st => compressFrom s set t (compressStep s set (t + 1) st)

/-- Revisions with commas between them, the oldest delta first. -/
def printRevs (s : File) (list : List Nat) : Option Bytes :=
  if list = [] then none else
    some ([comma].intercalate (list.reverse.map fun t => delta_rev (s.rev t)))

def compressmap (s : File) (d : Nat) (set : Nat → Byte) : Option Bytes × Option Bytes :=
  let st := compressFrom s.toSfile set s.graph.table ⟨update (fun _ => 0) d S_PAR, [],[]⟩
  (printRevs s st.incser, printRevs s st.excser)

end BitKeeper.Serialmap
