import Mathlib

/-!
Inserting the deltas of a patch into the delta table (`cweave.c`). A serial is a position counted
from one, and every insertion renames the deltas behind it.
-/

namespace BitKeeper.CsetInsert

structure Delta (K Q : Type) where
  key : K
  date : Nat
  sortkey : Q
  tag : Bool
  parent : Nat
  merge : Nat
  ptag : Nat
  mtag : Nat
  cludes : List (Nat × Bool)
  remote : Bool
  deriving DecidableEq

structure Symbol where
  name : String
  ser : Nat
  metaSer : Nat
  deriving DecidableEq

structure Sccs (K Q : Type) where
  deltas : List (Delta K Q)
  symlist : List Symbol
  locs : List Nat
  deriving DecidableEq

/-- One delta of a patch: all of its references are keys. -/
structure Incoming (K Q : Type) where
  key : K
  date : Nat
  sortkey : Q
  tag : Bool
  parent : Option K
  merge : Option K
  ptag : Option K
  mtag : Option K
  incs : List K
  excs : List K
  syms : List String

/-- `sameRank` is the exit of `earlier`, `missing` an unknown reference,
`lineage` the duplicate with other parents, `noTarget` the assertion of
`addsym`. -/
inductive Stop
  | sameRank
  | missing
  | lineage
  | noTarget
  deriving DecidableEq

variable {K Q : Type}

section
variable [LinearOrder Q]

def earlier (a b : Delta K Q) : Except Stop Bool :=
  if a.date < b.date then .ok true
  else if b.date < a.date then .ok false
  else if a.sortkey < b.sortkey then .ok true
  else if b.sortkey < a.sortkey then .ok false
  else .error .sameRank

def insertionPoint (d : Delta K Q) : List (Delta K Q) → Except Stop Nat
  | [] => .ok 1
  | e :: older => do
      if ← earlier e d then pure (older.length + 2) else insertionPoint d older

end

section
variable [DecidableEq K]

def sccs_findKey (deltas : List (Delta K Q)) (k : K) : Nat :=
  match deltas.findIdx? (fun d => d.key = k) with
  | none => 0
  | some i => i + 1

/-- A key of the init block; no key is the serial zero. -/
def reference (deltas : List (Delta K Q)) : Option K → Except Stop Nat
  | none => .ok 0
  | some k => if sccs_findKey deltas k = 0 then .error .missing else .ok (sccs_findKey deltas k)

def references (deltas : List (Delta K Q)) (sign : Bool) :
    List K → Except Stop (List (Nat × Bool))
  | [] => .ok []
  | k :: rest => do
      let d ← reference deltas (some k)
      let ds ← references deltas sign rest
      pure ((d, sign) :: ds)

/-- `sccs_getInit` with the parent of `takepatch`. -/
def sccs_getInit (deltas : List (Delta K Q)) (p : Incoming K Q) : Except Stop (Delta K Q) := do
  let parent ← reference deltas p.parent
  let incs ← references deltas true p.incs
  let merge ← reference deltas p.merge
  let ptag ← reference deltas p.ptag
  let mtag ← reference deltas p.mtag
  let excs ← references deltas false p.excs
  pure
    { key := p.key, date := p.date, sortkey := p.sortkey, tag := p.tag
      parent := parent, merge := merge, ptag := ptag, mtag := mtag
      cludes := incs ++ excs, remote := true }

end

def bump (serial p : Nat) : Nat := if serial ≤ p then p + 1 else p

/-- `EACH_PARENT` stops at an empty parent. -/
def bumpParents (serial : Nat) (d : Delta K Q) : Delta K Q :=
  if d.parent = 0 then d
  else { d with parent := bump serial d.parent, merge := bump serial d.merge }

def insertDelta (deltas : List (Delta K Q)) (serial : Nat) (d : Delta K Q) : List (Delta K Q) :=
  deltas.take (serial - 1) ++ d :: (deltas.drop (serial - 1)).map (bumpParents serial)

def bumpSymbols (serial : Nat) (symlist : List Symbol) : List Symbol := symlist.map (fun sym =>
    { sym with ser := bump serial sym.ser, metaSer := bump serial sym.metaSer })

/-- `while (d && TAG(s, d)) d = PARENT(s, d);` within `steps` rounds. -/
def realDelta (deltas : List (Delta K Q)) : Nat → Nat → Nat
  | 0, d => d
  | steps + 1, d =>
    match deltas[d - 1]? with
    | some delta => if d ≠ 0 ∧ delta.tag then realDelta deltas steps delta.parent else d
    | none => d

/-- `addsym(s, metad, 0, val)`: behind the last symbol of an older or the same
meta delta. -/
def addsym (deltas : List (Delta K Q)) (symlist : List Symbol) (metad : Nat) (val : String) :
    Except Stop (List Symbol) :=
  if realDelta deltas metad metad = 0 then .error .noTarget
  else
    let behind := (symlist.reverse.takeWhile (fun sym => metad < sym.metaSer)).reverse
    let before := (symlist.reverse.dropWhile (fun sym => metad < sym.metaSer)).reverse
    .ok (before ++ { name := val, ser := realDelta deltas metad metad, metaSer := metad } :: behind)

/-- `SERMAP`, with `remap` filled up to the delta at hand. -/
def sermap (base : Nat) (remap : List Nat) (e : Nat) : Nat :=
  if base < e then remap.getD (e - base - 1) 0 else e

def fixDelta (base : Nat) (remap : List Nat) (d : Delta K Q) : Delta K Q := { d with
    cludes := d.cludes.map (fun c => (sermap base remap c.1, c.2))
    ptag := sermap base remap d.ptag
    mtag := if d.ptag = 0 then d.mtag else sermap base remap d.mtag }

def fixLoop (base : Nat) : Nat → List Nat → List (Delta K Q) → List (Delta K Q)
  | _, _, [] => []
  | d, remap, delta :: rest =>
    if delta.remote then delta :: fixLoop base (d + 1) remap rest
    else fixDelta base (remap ++ [d]) delta :: fixLoop base (d + 1) (remap ++ [d]) rest

def isRemote (deltas : List (Delta K Q)) (d : Nat) : Bool :=
  d ≠ 0 && (deltas[d - 1]?.map (·.remote)).getD false

def fix (s : Sccs K Q) : Sccs K Q := match s.locs.find? (isRemote s.deltas) with
  | none => s
  | some first =>
    { s with
      deltas := s.deltas.take first ++ fixLoop (first - 1) (first + 1) [] (s.deltas.drop first) }

def written (s : Sccs K Q) : Sccs K Q :=
  { s with deltas := s.deltas.map (fun d => { d with remote := false }), locs := [] }

variable [DecidableEq K] [LinearOrder Q]

def cset_insert (s : Sccs K Q) (p : Incoming K Q) : Except Stop (Sccs K Q) := do
  let d ← sccs_getInit s.deltas p
  let e := sccs_findKey s.deltas p.key
  if e ≠ 0 then
    match s.deltas[e - 1]? with
    | some delta =>
      if delta.parent ≠ d.parent ∨ delta.merge ≠ d.merge then .error .lineage
      else pure { s with locs := s.locs ++ [e] }
    | none => .error .missing
  else do
    let serial ← insertionPoint d s.deltas.reverse
    let deltas := insertDelta s.deltas serial d
    let symlist := if serial ≠ deltas.length then bumpSymbols serial s.symlist else s.symlist
    let symlist ← p.syms.foldlM (fun syms val => addsym deltas syms serial val) symlist
    pure { deltas := deltas, symlist := symlist, locs := s.locs ++ [serial] }

/-- `takepatch` for one patch, oldest delta first. -/
def applyPatch (s : Sccs K Q) (ps : List (Incoming K Q)) : Except Stop (Sccs K Q) := do
  let s ← ps.foldlM cset_insert s
  pure (written (fix s))

end BitKeeper.CsetInsert
