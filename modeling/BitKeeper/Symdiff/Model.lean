import BitKeeper.Graph.Table

/-!
The symmetric difference of two serial maps: two walks in one byte per delta, with a counter that
stops the walk when the two sides agree on all that is left. A negative count is expand.
-/

namespace BitKeeper.Symdiff

/-! ### The file -/

structure Clude where
  plus : Bool
  serial : Nat
deriving DecidableEq, Repr

/-- A file with its delta graph: `BKMERGE` follows merge edges like parent
edges. -/
structure Sfile where
  graph : Graph
  bkmerge : Bool
  cludes : Nat → List Clude

/-! ### Bytes -/

abbrev Byte := BitVec 8

def S_DIFF : Byte := 0x01#8

def SR_PAR : Byte := 0x02#8

def SR_INC : Byte := 0x04#8

def SR_EXCL : Byte := 0x08#8

def S_DUP : Byte := 0x10#8

def SL_PAR : Byte := 0x20#8

/-- Active bits for left and right in one calculation. -/
def ACTIVE (x : Byte) : Byte := (((x >>> 1) &&& (~~~x >>> 3)) ||| (x >>> 2)) &&& 0x11#8

def XOR_ACTIVE (x : Byte) : Byte := ((x >>> 4) ^^^ x) &&& 0x01#8

def ARIGHT : Byte := 0x01#8

/-- The new include or exclude bits. -/
def IE (active bits : Byte) (plus : Bool) : Byte :=
  (~~~((bits >>> 2) ||| (bits >>> 3)) &&& active) <<< (if plus then 2 else 3)

def S_DIFFERENT (x : Byte) : Byte := (x ^^^ (x >>> 4)) &&& (SR_PAR ||| SR_INC ||| SR_EXCL)

/-! ### The walk -/

structure Task where
  s : Sfile
  right : Nat
  /-- The lists read for a delta: those of the file or the given ones. -/
  cludes : Nat → List Clude
  expand : Bool
  dups : Bool

structure State where
  slist : Nat → Byte
  marked : Int
  lower : Nat
  count : Int
  cludes : List Clude
  dups : List Clude

def update (d : Nat) (newbits : Byte) (st : State) : State := { st with
    slist := Function.update st.slist d (st.slist d ||| newbits)
    marked := st.marked - (if S_DIFFERENT (st.slist d) ≠ 0 then 1 else 0) +
      (if S_DIFFERENT (st.slist d ||| newbits) ≠ 0 then 1 else 0)
    lower := if d < st.lower then d else st.lower }

def foundDup (bits : Byte) (dup : Nat) (st : State) : State :=
  { st with dups := st.dups ++ [⟨decide (bits &&& SR_EXCL = 0),dup⟩] }

/-- Expand: the delta is flipped if one side is active. -/
def expandAt (d : Nat) (bits active : Byte) (st : State) : State :=
  let flipped := (bits &&& S_DIFF) ^^^ S_DIFF
  if XOR_ACTIVE active = 0 then { st with slist := Function.update st.slist d (bits &&& S_DIFF) }
  else
    { st with
      slist := Function.update st.slist d flipped
      count := if flipped = 0 then st.count - 1 else st.count + 1 }

/-- Compress: an include or exclude where the map asks for another state, and the active bits of the
delta. -/
def compressAt (d : Nat) (bits active : Byte) (st : State) : State × Byte :=
  let st := { st with
    slist := Function.update st.slist d 0
    marked := if bits &&& S_DIFF = 0 then st.marked else st.marked - 1 }
  if (bits &&& S_DIFF) ^^^ XOR_ACTIVE active = 0 then (st, active)
  else
    let active := active ^^^ ARIGHT
    ({ st with cludes := st.cludes ++ [⟨decide (active &&& ARIGHT ≠ 0),d⟩] }, active)

/-- A list entry of the right delta that nothing else has touched. -/
def dupAt (d : Nat) (bits : Byte) (st : State) : State :=
  if bits &&& S_DUP = 0 then st
  else
    let st := { st with marked := st.marked - 1 }
    if (bits &&& SR_PAR = 0) = (bits &&& SR_INC = 0) then foundDup bits d st else st

def lineageAt (s : Sfile) (d : Nat) (bits : Byte) (st : State) : State :=
  let newbits := bits &&& (SL_PAR ||| SR_PAR)
  if newbits = 0 then st
  else
    let st := if s.graph.parent d = 0 then st else update (s.graph.parent d) newbits st
    if s.bkmerge = true ∧ s.graph.merge d ≠ 0 then update (s.graph.merge d) newbits st else st

/-- Includes and excludes of the right delta are followed up as duplicates. -/
def dupClude (t : Task) (d : Nat) (active bits : Byte) (c : Clude) (st : State) : State :=
  if d = t.right then
    if bits &&& S_DUP ≠ 0 then foundDup bits c.serial st
    else
      { st with
        slist := Function.update st.slist c.serial (st.slist c.serial ||| S_DUP)
        marked := st.marked + 1 }
  else if active &&& ARIGHT ≠ 0 ∧ bits &&& S_DUP ≠ 0 then
    let st := if c.plus = decide (bits &&& SR_INC ≠ 0) then foundDup bits c.serial st else st
    { st with
      slist := Function.update st.slist c.serial (st.slist c.serial &&& ~~~S_DUP)
      marked := st.marked - 1 }
  else st

def cludeAt (t : Task) (d : Nat) (active : Byte) (st : State) (c : Clude) : State :=
  let bits := st.slist c.serial
  let st := update c.serial (IE active bits c.plus) st
  if t.dups then dupClude t d active bits c st else st

def passOn (t : Task) (d : Nat) (bits active : Byte) (st : State) : State :=
  let st := lineageAt t.s d bits (dupAt d bits st)
  if active = 0 then st else (t.cludes d).foldl (cludeAt t d active) st

def visit (t : Task) (d : Nat) (st : State) :
    State := if t.s.graph.tag d = true ∨ st.slist d = 0 then st
  else
    let bits := st.slist d
    let st := if S_DIFFERENT bits ≠ 0 then { st with marked := st.marked - 1 } else st
    let active := ACTIVE bits
    if t.expand then passOn t d bits active (expandAt d bits active st)
    else
      let turn := compressAt d bits active st
      passOn t d bits turn.2 turn.1

/-- The loop from delta `d` down; the delta it stops at is returned too. -/
def walkDown (t : Task) : Nat → State → State × Nat
  | 0, st => (st, 0)
  | d + 1, st => if st.marked = 0 then (st, d + 1) else walkDown t d (visit t (d + 1) st)

/-- The loop that leaves `S_DIFF` alone. -/
def fresh (lower : Nat) : Nat → (Nat → Byte) → Nat → Byte
  | 0, slist => slist
  | d + 1, slist =>
    if d + 1 < lower then slist else
      fresh lower d (Function.update slist (d + 1) (slist (d + 1) &&& S_DIFF))

def seed (t : Task) (leftlist : List Nat) (st : State) : State :=
  let st := leftlist.foldl (fun st d => update d SL_PAR st) st
  if t.right = 0 then st else update t.right SR_PAR st

def startOf (leftlist : List Nat) (right : Nat) : Nat :=
  let start := leftlist.foldl (fun start d => if start < d then d else start) 0
  if start < right then right else start

/-- Nothing is returned if `assert(!marked)` fails. -/
def symdiff (t : Task) (leftlist : List Nat) (slist : Nat → Byte) (count : Int) : Option State :=
  let st : State :=
    { slist := slist, marked := if t.expand then 0 else count, lower := t.s.graph.table
      count := 0, cludes := [], dups := [] }
  let out := walkDown t (startOf leftlist t.right) (seed t leftlist st)
  let st := out.1
  if st.marked ≠ 0 then none
  else if out.2 ≠ 0 ∧ st.lower ≠ 0 then some { st with slist := fresh st.lower out.2 st.slist }
  else some st

/-- The number of ones that were added and the map. -/
def symdiff_expand (s : Sfile) (leftlist : List Nat) (right : Nat) (slist : Nat → Byte) :
    Option (Int × (Nat → Byte)) :=
  (symdiff ⟨s,right,s.cludes,true,false⟩ leftlist slist (-1)).map fun st => (st.count, st.slist)

/-! ### The list of the right delta -/

def newestFirst (serials : List Nat) : List Nat := serials.mergeSort fun a b => decide (b ≤ a)

/-- All includes, then all excludes. -/
def sortCludes (list : List Clude) : List Clude :=
  (newestFirst ((list.filter Clude.plus).map Clude.serial)).map (Clude.mk true) ++
    (newestFirst ((list.filter fun c => !c.plus).map Clude.serial)).map (Clude.mk false)

def Sfile.setCludes (s : Sfile) (d : Nat) (list : List Clude) : Sfile :=
  { s with cludes := Function.update s.cludes d list }

/-- The file with the new list and the map. -/
def comp (s : Sfile) (leftlist : List Nat) (right : Nat) (dups : List Clude) (slist : Nat → Byte)
    (count : Int) :
    Option (Sfile × (Nat → Byte)) :=
  let bare := s.setCludes right []
  if right = 0 then none
  else
    (symdiff ⟨bare,right,bare.cludes,false,false⟩ leftlist slist count).map fun st =>
      (s.setCludes right (sortCludes (st.cludes ++ dups)), st.slist)

def symdiff_compress (s : Sfile) (leftlist : List Nat) (right : Nat) (slist : Nat → Byte)
    (count : Int) :
    Option (Sfile × (Nat → Byte)) :=
  comp s leftlist right [] slist count

end BitKeeper.Symdiff
