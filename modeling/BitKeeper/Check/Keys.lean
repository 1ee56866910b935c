import BitKeeper.Check.Paths
import BitKeeper.Lib.Assoc
import BitKeeper.Range.Either

/-!
`bk check` against the ChangeSet file: `checkKeys` saves the marked keys of every file, `buildKeys`
reads the ChangeSet weave, newest cset first, and strikes out the saved ones, and `missingDelta` mends
or reports what is left. The check is outside of RESYNC, in a repository that is not a product.
-/

namespace BitKeeper.Check

open Assoc Bytes Range

structure Mask where
  parent : Bool
  merge : Bool
  intip : Bool
  tip : Bool
  gca : Bool
  done : Bool
deriving DecidableEq

namespace Mask

def none : Mask := ⟨false,false,false,false,false,false⟩

def or (a b : Mask) : Mask :=
  ⟨a.parent || b.parent,a.merge || b.merge,a.intip || b.intip,a.tip || b.tip,a.gca || b.gca,
    a.done || b.done⟩

end Mask

def RK_PARENT : Mask := { Mask.none with parent := true }

def RK_MERGE : Mask := { Mask.none with merge := true }

def RK_INTIP : Mask := { Mask.none with intip := true }

def RK_TIP : Mask := { Mask.none with tip := true }

def RK_GCA : Mask := { Mask.none with gca := true }

def RK_DONE : Mask := { Mask.none with done := true }

def flags2mask (color : Color) : Mask := match color.red, color.blue with
  | false, false => RK_GCA
  | true, false => RK_PARENT
  | false, true => RK_MERGE
  | true, true => RK_INTIP

/-- The colours and the oldest coloured cset; nothing if an assertion of the walk fails. -/
def color_merge (g : Graph) (s : Sccs) (trunk branch : Nat) :
    Option (Sccs × Nat) := if branch = 0 then
    let s := s.orColor trunk (Color.D_BLUE.or Color.D_RED)
    if g.merge trunk = 0 then some (s, trunk)
    else
      (range_walkrevs g s [g.merge trunk] (some [g.parent trunk]) Mode.eitherSide none).map
        fun walked => (walked.1, walked.1.rstart)
  else
    (range_walkrevs g s [branch] (some [trunk]) Mode.eitherSide none).map
      fun walked => (walked.1, walked.1.rstart)

def bar : UInt8 := 124

/-- `strchr(s, '|') + 1`. -/
def afterBar (s : Bytes) : Bytes := (s.dropWhile fun c => c ≠ bar).tail

def keyDate (key : Bytes) : Bytes := afterBar (afterBar key)

def keyPath (key : Bytes) : Bytes := (afterBar key).takeWhile fun c => c ≠ bar

/-- `"/ChangeSet"`. -/
def slashChangeSet : Bytes := [47,67,104,97,110,103,101,83,101,116]

def strstr (s text : Bytes) : Bool := s.tails.any fun rest => text.isPrefixOf rest

def componentKey (key : Bytes) : Bool := strstr key (slashChangeSet ++ [bar])

/-- A component's path is the one of its directory. -/
def tipPath (key : Bytes) : Bytes :=
  let path := keyPath key
  if 10 < path.length ∧ path.drop (path.length - 10) = slashChangeSet then
    path.take (path.length - 10) else path

/-- What is known of a root key.  `keys` is null for a root key that has no
file. -/
structure Rkdata where
  keys : Option (List Bytes)
  dmasks : Nat → Mask
  curr : Nat
  missing : List (Nat × Bytes)
  unmarked : Nat
  mask : Mask

def Rkdata.zero : Rkdata := ⟨none,fun _ => Mask.none, 0,[],0,Mask.none⟩

def Rkdata.keycnt (rkd : Rkdata) : Nat := (rkd.keys.getD []).length

/-- A file: its deltas from the newest to the oldest, with their keys and their
cset marks. -/
abbrev Deltas := List (Bytes × Bool)

/-- The keys of the marked deltas, in the order of the deltas. -/
def markedKeys (deltas : Deltas) : List Bytes := (deltas.filter fun delta => delta.2).map Prod.fst

def fileKeys (deltas : Deltas) : Rkdata :=
  { Rkdata.zero with
    keys := some (markedKeys deltas)
    unmarked := (markedKeys deltas).length
    curr := 1 }

/-- `checkKeys` for the next file; an error if its root key has been seen. -/
def checkKeys (r2deltas : List (Nat × Rkdata)) (file : Nat × Deltas) : List (Nat × Rkdata) × Nat :=
  if file.1 ∈ r2deltas.map Prod.fst then (r2deltas, 1) else
    (r2deltas ++ [(file.1, fileKeys file.2)], 0)

def checkFiles (files : List (Nat × Deltas)) : List (Nat × Rkdata) :=
  files.foldl (fun r2deltas file => (checkKeys r2deltas file).1) []

structure Pair where
  ser : Nat
  rkoff : Nat
  dkey : Option Bytes
deriving DecidableEq

structure Env where
  g : Graph
  flags : Sccs
  /-- `sccs_top(cset)`. -/
  top : Nat
  /-- What `cset_rdweavePair` returns, one after the other. -/
  weave : List Pair
  rkey : Nat → Bytes
  gone : Bytes → Bool
  present : Nat → Bool
  all : Bool
  doMarks : Bool
  processDups : Bytes → Bytes → Mask → Mask → Bool
  /-- What the memory in front of an empty key buffer spells. -/
  spare : Bytes

/-- `KEY(rkd, i)`. -/
def KEY (env : Env) (rkd : Rkdata) (i : Nat) : Bytes := (rkd.keys.getD []).getD (i - 1) env.spare

/-- Walk backwards from `p` to the first key with a newer date. -/
def keyBack (env : Env) (rkd : Rkdata) (date : Bytes) : Nat → Nat
  | 0 => 0
  | p + 1 =>
    if p = 0 then 0
    else if strncmp 14 (keyDate (KEY env rkd p)) date ≤ 0 then keyBack env rkd date p else p

/-- Walk forward from behind `p` until a key has an older date. -/
def keyForward (env : Env) (rkd : Rkdata) (key : Bytes) : Nat → Nat → Nat
  | 0, _ => 0
  | fuel + 1, p =>
    if rkd.keycnt < p + 1 then 0
    else
      let cmp := strncmp 14 (keyDate (KEY env rkd (p + 1))) (keyDate key)
      if cmp = 0 ∧ KEY env rkd (p + 1) = key then p + 1
      else if 0 ≤ cmp then keyForward env rkd key fuel (p + 1) else 0

def keyFind (env : Env) (rkd : Rkdata) (key : Bytes) :
    Nat := let p := if rkd.curr = 0 then 1 else rkd.curr
  keyForward env rkd key (rkd.keycnt + 1) (keyBack env rkd (keyDate key) p)

/-- The saved key that a key of the weave is compared with: the current one, or
one found by its date. -/
def matchIndex (env : Env) (rkd : Rkdata) (dkey : Bytes) : Nat :=
  if rkd.curr ≠ 0 ∧ dkey = KEY env rkd rkd.curr then rkd.curr else keyFind env rkd dkey

/-- Strike a key out, or remember it as missing; the number counts complaints about duplicates. -/
def strike (env : Env) (mask : Mask) (p : Pair) (dkey : Bytes) (rkd : Rkdata) : Rkdata × Nat :=
  let i := matchIndex env rkd dkey
  if i ≠ 0 then
    let again := rkd.dmasks i ≠ Mask.none
    let dup := again ∧ env.processDups (env.rkey p.rkoff) dkey (rkd.dmasks i) mask = true
    ({ rkd with
        unmarked := if again then rkd.unmarked else (rkd.unmarked + (2 ^ 32 - 1)) % 2 ^ 32
        dmasks := Function.update rkd.dmasks i ((rkd.dmasks i).or mask)
        curr := if i < rkd.keycnt then i + 1 else 0 }, if dup then 1 else 0)
  else ({ rkd with missing := rkd.missing ++ [(p.ser, dkey)] }, 0)

/-- Above the oldest coloured cset the root key collects the colours. -/
def collect (merging : Bool) (mask : Mask) (rkd : Rkdata) : Rkdata :=
  if merging then { rkd with mask := rkd.mask.or mask } else rkd

/-- The path of a root key at the tip is the one of the first key seen. -/
def atTip (env : Env) (rkd : Rkdata) (dkey : Bytes) : Bool := !rkd.mask.tip && !env.gone dkey

def sawKey (env : Env) (dkey : Bytes) (rkd : Rkdata) : Rkdata :=
  if atTip env rkd dkey then { rkd with mask := rkd.mask.or RK_TIP } else rkd

/-- What an entry of the weave does to its root key, with the errors. -/
def rkdTurn (env : Env) (merging : Bool) (mask : Mask) (p : Pair) (rkd : Rkdata) : Rkdata × Nat :=
  let late := if rkd.mask.done then 1 else 0
  match p.dkey with
  | none => ({ rkd with mask := rkd.mask.or RK_DONE }, late)
  | some dkey =>
    let rkd := sawKey env dkey (collect merging mask rkd)
    if rkd.keys.isSome then ((strike env mask p dkey rkd).1, late + (strike env mask p dkey rkd).2)
    else (rkd, late)

/-- The loop of `buildKeys` between two entries. -/
structure Build where
  r2deltas : List (Nat × Rkdata)
  e : Nat
  warned : List Nat
  pathnames : List Tipdata
  oldest : Nat
  lastser : Nat
  mask : Mask

/-- A root key that both sides of the merge changed and the merge did not. -/
def unmerged (env : Env) (node : Nat × Rkdata) : Bool :=
  node.2.mask.parent && node.2.mask.merge && !node.2.mask.intip && !env.gone (env.rkey node.1)

/-- The first entry of a cset.  The error is a root key without a merge. -/
def newSer (env : Env) (s : Sccs) (b : Build) (ser : Nat) : Except Nat Build :=
  if ser = b.lastser then .ok b
  else if ser < b.oldest then
    match b.r2deltas.find? (unmerged env) with
    | some node => .error node.1
    | none => .ok { b with lastser := ser, oldest := 0, mask := flags2mask Color.clear }
  else
    .ok { b with lastser := ser
                 mask := if b.oldest ≠ 0 then flags2mask (s.flags ser).color else
                   flags2mask Color.clear }

def tipOf (env : Env) (p : Pair) (dkey : Bytes) : Tipdata where
  path := tipPath dkey
  rkey := env.rkey p.rkoff
  component := componentKey dkey
  gone := env.gone (env.rkey p.rkoff)
  present := env.present p.rkoff
  incommit := env.doMarks && decide (p.ser = env.g.table)

def noFile (env : Env) (b : Build) (p : Pair) : Bool :=
  decide (p.rkoff ∉ b.r2deltas.map Prod.fst) && env.all && !componentKey (p.dkey.getD []) &&
    !env.gone (env.rkey p.rkoff)

def newTip (env : Env) (rkd : Rkdata) (p : Pair) : List Tipdata := match p.dkey with
  | none => []
  | some dkey => if atTip env rkd dkey then [tipOf env p dkey] else []

def keyTurn (env : Env) (b : Build) (p : Pair) : Build :=
  let rkd := (b.r2deltas.lookup p.rkoff).getD Rkdata.zero
  let merging := decide (b.oldest ≠ 0)
  let turn := rkdTurn env merging b.mask p rkd
  { b with
    r2deltas := put b.r2deltas p.rkoff turn.1
    e := b.e + turn.2
    warned := if noFile env b p then b.warned ++ [p.rkoff] else b.warned
    pathnames := b.pathnames ++ newTip env (collect merging b.mask rkd) p }

def weaveTurn (env : Env) (s : Sccs) (b : Build) (p : Pair) : Except Nat Build :=
  match newSer env s b p.ser with
  | .error rk => .error rk
  | .ok b => .ok (keyTurn env b p)

def readWeave (env : Env) (s : Sccs) : List Pair → Build → Except Nat Build
  | [], b => .ok b
  | p :: rest, b =>
    match weaveTurn env s b p with
    | .error rk => .error rk
    | .ok b => readWeave env s rest b

/-- A missing key: mark its delta, or count an error; nothing if the delta is marked already. -/
def mend (env : Env) (rk : Nat) (checked : Deltas × Nat) (key : Bytes) : Option (Deltas × Nat) :=
  match checked.1.lookup key with
  | some true => none
  | some false => some (put checked.1 key true, checked.2)
  | none =>
    if env.gone key then some checked
    else if env.gone (env.rkey rk) then some checked
    else some (checked.1, checked.2 + 1)

/-- The marked keys that are not in the weave. -/
def unmatched (rkd : Rkdata) : Nat :=
  if rkd.unmarked = 0 then 0
  else
    let struck := (List.range' 1 rkd.keycnt).any fun i => rkd.dmasks i ≠ Mask.none
    let found := (List.range' 1 rkd.keycnt).any fun i => rkd.dmasks i = Mask.none
    if struck then (if found then 1 else 0) else 1

/-- The deltas with their marks and the number of errors. -/
def missingDelta (env : Env) (rk : Nat) (deltas : Deltas) (rkd : Rkdata) : Option (Deltas × Nat) :=
  (rkd.missing.foldlM (fun checked line => mend env rk checked line.2) (deltas, 0)).map
    fun checked => (checked.1, checked.2 + unmatched rkd)

def checkRoot (env : Env) (files : List (Nat × Deltas)) (node : Nat × Rkdata) :
    Option (Deltas × Nat) :=
  let deltas := (files.lookup node.1).getD []
  if node.2.missing ≠ [] ∨ node.2.unmarked ≠ 0 then missingDelta env node.1 deltas node.2
  else some (deltas, 0)

def checkRoots (env : Env) (files : List (Nat × Deltas)) :
    List (Nat × Rkdata) → Option (List (Nat × Deltas × Nat))
  | [] => some []
  | node :: rest =>
    match checkRoot env files node, checkRoots env files rest with
    | some checked, some others => some ((node.1, checked) :: others)
    | _, _ => none

/-- `e` counts keys behind a marker and duplicates, `warned` root keys without a file; every root
key has its deltas with their marks and the errors of `missingDelta`. -/
structure Report where
  e : Nat
  warned : List Nat
  roots : List (Nat × Deltas × Nat)
  conflict : Bool
deriving DecidableEq

inductive Outcome where
  | assertion
  | missingMerge (rk : Nat)
  | report (r : Report)
deriving DecidableEq

def buildKeys (env : Env) (q : SortPaths) (files : List (Nat × Deltas)) : Outcome :=
  match color_merge env.g env.flags env.top 0 with
  | none => .assertion
  | some (s, oldest) =>
    match readWeave env s env.weave ⟨checkFiles files,0,[],[],oldest,0,Mask.none⟩ with
    | .error rk => .missingMerge rk
    | .ok b =>
      match checkRoots env files b.r2deltas with
      | none => .assertion
      | some roots => .report ⟨b.e,b.warned,roots,pathConflicts q b.pathnames⟩

end BitKeeper.Check
