import Mathlib

/-!
The ChangeSet weave in its binary form (`dataheap.c`, `cweave.c`, `slib.c`). A cset owns a block of
pairs of offsets; a zero in second place marks the last key of a file. An offset counts the strings of
the heap from one.
-/

namespace BitKeeper.CsetWeave

open Function

abbrev Key := List Char

abbrev Block := List (Nat × Nat)

/-- `uniq` are the strings found by `nokey_lookup`. -/
structure Heap where
  strs : List Key
  uniq : List Nat

structure Sccs where
  heap : Heap
  table : Nat
  weave : Nat → Option Block

/-! ### The heap -/

def Heap.len (h : Heap) : Nat := h.strs.length + 1

def sccs_addStr (h : Heap) (str : Key) : Heap := { h with strs := h.strs ++ [str] }

def sccs_hasRootkey (h : Heap) (key : Key) : Nat :=
  (h.uniq.find? (fun off => h.strs[off - 1]? = some key)).getD 0

/-- The heap that has the rootkey; its offset is `sccs_hasRootkey` there. -/
def sccs_addUniqRootkey (h : Heap) (key : Key) : Heap :=
  if sccs_hasRootkey h key ≠ 0 then h
  else { strs := h.strs ++ [key], uniq := h.len :: h.uniq }

/-! ### One cset -/

/-- A leading bar asks for the marker. -/
def lastKey : Key → Bool × Key
  | '|' :: dkey => (true, dkey)
  | dkey => (false, dkey)

def weaveKeys : Heap → List (Key × Key) → Heap × Block
  | h, [] => (h, [])
  | h, (rkey, dkey) :: rest =>
    let withRoot := sccs_addUniqRootkey h rkey
    let rkoff := sccs_hasRootkey withRoot rkey
    let later := weaveKeys (sccs_addStr withRoot (lastKey dkey).2) rest
    (later.1, (rkoff, withRoot.len) :: (if (lastKey dkey).1 then [(rkoff, 0)] else []) ++ later.2)

def weave_set (s : Sccs) (d : Nat) (keys : List (Key × Key)) : Sccs := { s with
    heap := (weaveKeys s.heap keys).1
    weave := update s.weave d (some (weaveKeys s.heap keys).2) }

/-- The loop of `weave_updateMarker` and its `sawrkey`; `none` is a failed assertion, with `skip`
the next pair is a marker that is left out. -/
def updateBlock (rk : Nat) (add : Bool) : Bool → Block → Option (Block × Bool)
  | _, [] => some ([], false)
  | true, _ :: rest => updateBlock rk add false rest
  | false, (rkoff, dkoff) :: rest =>
    if rkoff ≠ rk then
      (updateBlock rk add false rest).map (fun w => ((rkoff, dkoff) :: w.1, w.2))
    else if dkoff = 0 then none
    else if add then
      if rest.head?.map (·.1) = some rk then none
      else
        (updateBlock rk add false rest).map (fun w => ((rkoff, dkoff) :: (rkoff, 0) :: w.1, true))
    else if rest.head? = some (rk, 0) then
      (updateBlock rk add true rest).map (fun w => ((rkoff, dkoff) :: w.1, true))
    else none

def weave_updateMarker (s : Sccs) (d rk : Nat) (add : Bool) : Option Sccs :=
  match updateBlock rk add false ((s.weave d).getD []) with
  | some (w, true) => some { s with weave := update s.weave d (some w) }
  | _ => none

/-! ### Hashes from offsets to numbers -/

abbrev Hash := Nat → Option Nat

def hash_insertU32U32 (h : Hash) (key val : Nat) : Hash :=
  if (h key).isSome then h else update h key (some val)

def hash_fetchU32U32 (h : Hash) (key : Nat) : Nat := (h key).getD 0

/-! ### Taking the csets of a patch -/

abbrev Patch := List (Nat × List (Key × Key))

structure Scan where
  heap : Heap
  hash : Hash
  cnt : Nat

/-- First pass, one cset: note the oldest serial of rootkeys that may be in the weave, ask for the
marker of others. -/
def noteKeys (d : Nat) : Scan → List (Key × Key) → Scan × List (Key × Key)
  | scan, [] => (scan, [])
  | scan, (rkey, dkey) :: rest =>
    if sccs_hasRootkey scan.heap rkey ≠ 0 then
      let rkoff := sccs_hasRootkey scan.heap rkey
      let later := noteKeys d
        { scan with
          hash := hash_insertU32U32 scan.hash rkoff d
          cnt := if (scan.hash rkoff).isSome then scan.cnt else scan.cnt + 1 } rest
      (later.1, (rkey, dkey) :: later.2)
    else
      let heap := sccs_addUniqRootkey scan.heap rkey
      let later := noteKeys d
        { scan with
          heap := heap
          hash := hash_insertU32U32 scan.hash (sccs_hasRootkey heap rkey) 0 } rest
      (later.1, (rkey, '|' :: dkey) :: later.2)

def notePatch : Scan → Patch → Scan × Patch
  | scan, [] => (scan, [])
  | scan, (d, keys) :: newer =>
    let first := noteKeys d scan keys
    let later := notePatch first.1 newer
    (later.1, (d, first.2) :: later.2)

/-- `cset_rdweavePair` over the whole file, newest cset first. -/
def rdweave (s : Sccs) : List (Nat × Nat × Nat) :=
  (List.range s.table).reverse.flatMap (fun i =>
    ((s.weave (i + 1)).getD []).map (fun p => (i + 1, p.1, p.2)))

/-- Second pass. A rewritten block is still read at its old place, so the pairs are those from
before. -/
def clearMarkers : List (Nat × Nat × Nat) → Sccs → Hash → Nat → Option (Sccs × Hash)
  | [], s, h, _ => some (s, h)
  | (d, rkoff, dkoff) :: rest, s, h, cnt =>
    if hash_fetchU32U32 h rkoff = 0 then clearMarkers rest s h cnt
    else if hash_fetchU32U32 h rkoff < d then
      if dkoff ≠ 0 then clearMarkers rest s h cnt
      else (weave_updateMarker s d rkoff false).bind (fun s =>
        if cnt - 1 = 0 then some (s, h) else clearMarkers rest s h (cnt - 1))
    else
      if cnt - 1 = 0 then some (s, update h rkoff (some 0))
      else clearMarkers rest s (update h rkoff (some 0)) (cnt - 1)

/-- Third pass, one cset: the rootkeys left in the hash are marked here. -/
def markKeys (heap : Heap) : Hash → List (Key × Key) → Hash × List (Key × Key)
  | h, [] => (h, [])
  | h, (rkey, dkey) :: rest =>
    let rkoff := sccs_hasRootkey heap rkey
    if rkoff ≠ 0 ∧ hash_fetchU32U32 h rkoff ≠ 0 then
      let later := markKeys heap (update h rkoff (some 0)) rest
      (later.1, (rkey, '|' :: dkey) :: later.2)
    else
      let later := markKeys heap h rest
      (later.1, (rkey, dkey) :: later.2)

def setPatch : Sccs → Hash → Patch → Option Sccs
  | s, _, [] => some s
  | s, h, (d, keys) :: newer =>
    if (s.weave d).isSome then none
    else setPatch (weave_set s d (markKeys s.heap h keys).2) (markKeys s.heap h keys).1 newer

/-- The patch lists its newest cset first. -/
def fastCsetWeave (s : Sccs) (weave : Patch) : Option Sccs :=
  let noted := notePatch { heap := s.heap, hash := fun _ => none, cnt := 0 } weave.reverse
  let s := { s with heap := noted.1.heap }
  (if noted.1.cnt = 0 then some (s, noted.1.hash)
    else clearMarkers (rdweave s) s noted.1.hash noted.1.cnt).bind
    (fun cleared => setPatch cleared.1 cleared.2 noted.2)

/-! ### Removing csets -/

/-- `FLAGS` as far as `scompressGraph` asks: none at all, `D_GONE`, others. -/
inductive Flag
  | hole
  | gone
  | live
  deriving DecidableEq

def compressPairs (e : Nat) (gone : Bool) : Block → Sccs → Hash → Option (Sccs × Hash)
  | [], s, h => some (s, h)
  | (rkoff, dkoff) :: rest, s, h =>
    if gone then
      if dkoff ≠ 0 then compressPairs e gone rest s h
      else compressPairs e gone rest s (hash_insertU32U32 h rkoff 1)
    else if hash_fetchU32U32 h rkoff ≠ 0 then
      (weave_updateMarker s e rkoff true).bind (fun s =>
        compressPairs e gone rest s (update h rkoff (some 0)))
    else compressPairs e gone rest s h

/-- Oldest cset first; `kept` are the blocks moved down so far. -/
def compressLoop (flags : Nat → Flag) :
    List Nat → Sccs → Hash → List (Option Block) → Option (Sccs × List (Option Block))
  | [], s, _, kept => some (s, kept)
  | e :: newer, s, h, kept =>
    match flags e with
    | .hole => compressLoop flags newer s h kept
    | .gone => (compressPairs e true ((s.weave e).getD []) s h).bind (fun r =>
      compressLoop flags newer r.1 r.2 kept)
    | .live => (compressPairs e false ((s.weave e).getD []) s h).bind (fun r =>
      compressLoop flags newer r.1 r.2 (kept ++ [r.1.weave e]))

def scompressGraph (s : Sccs) (flags : Nat → Flag) : Option Sccs :=
  (compressLoop flags ((List.range s.table).map (· + 1)) s (fun _ => none) []).map (fun r =>
    { r.1 with
      table := r.2.length
      weave := fun d => if d = 0 then none else (r.2[d - 1]?).join })

/-! ### Writing all of it anew -/

/-- An entry of the list made by `cset_mkList`. -/
structure Entry where
  ser : Nat
  rkoff : Nat
  dkoff : Nat
  deriving DecidableEq

def oldestSer (cweave : List Entry) : Hash :=
  cweave.reverse.foldl (fun first item => hash_insertU32U32 first item.rkoff item.ser) (fun _ => none)

def replaceLoop (first : Hash) : Nat → (Nat → Option Block) → List Entry → Nat → Option Block
  | _, weave, [] => weave
  | d, weave, item :: rest =>
    let started := if d ≠ item.ser then [] else (weave item.ser).getD []
    let marker := if hash_fetchU32U32 first item.rkoff = item.ser then [(item.rkoff, 0)] else []
    replaceLoop first item.ser
      (update weave item.ser (some (started ++ (item.rkoff, item.dkoff) :: marker))) rest

def weave_replace (s : Sccs) (cweave : List Entry) : Sccs :=
  { s with weave := replaceLoop (oldestSer cweave) 0 (fun _ => none) cweave }

/-! ### Repacking the heap -/

def heapStr (h : Heap) (off : Nat) : Key := (h.strs[off - 1]?).getD []

/-- The oldest deltakey of every rootkey; those of components and BAM files in the order they were
met. -/
structure Oldest where
  hash : Hash
  comprk : List Nat
  bamrk : List Nat

section Kinds
variable (changesetKey BAMkey : Key → Bool)

def oldestPair (old : Heap) (known : Oldest) (p : Nat × Nat) : Oldest :=
  if p.2 = 0 ∨ (known.hash p.1).isSome then known
  else
    { hash := update known.hash p.1 (some p.2)
      comprk := if changesetKey (heapStr old p.1) then known.comprk ++ [p.1] else known.comprk
      bamrk := if !changesetKey (heapStr old p.1) && BAMkey (heapStr old p.1) then
        known.bamrk ++ [p.1]
        else known.bamrk }

def oldestKeys (s : Sccs) (serials : List Nat) : Oldest := serials.foldl (fun known d =>
    ((s.weave d).getD []).foldl (oldestPair changesetKey BAMkey s.heap) known)
    { hash := fun _ => none, comprk := [], bamrk := [] }

end Kinds

/-- `rkeys` in the order of their new numbers, the newest deltakey of a file in `tipkeys`, the
others on the new heap. -/
structure Repack where
  rkeys : List Nat
  tipkeys : List Key
  heap : Heap

def newrk (rkeys : List Nat) (rkoff : Nat) : Nat := match rkeys.idxOf? rkoff with
  | none => 0
  | some i => i + 1

/-- One block with new rootkey numbers and deltakey lengths plus one. -/
def repackBlock (old : Heap) (oldest : Hash) : Repack → Block → Repack × Block
  | r, [] => (r, [])
  | r, (rkoff, dkoff) :: rest =>
    if dkoff = 0 then repackBlock old oldest r rest
    else
      let marker := fun n => if oldest rkoff = some dkoff then [(n, 0)] else []
      if newrk r.rkeys rkoff = 0 then
        let rkeys := r.rkeys ++ [rkoff]
        let later := repackBlock old oldest
          { r with rkeys := rkeys, tipkeys := r.tipkeys ++ [heapStr old dkoff] } rest
        (later.1, (rkeys.length, r.tipkeys.length + 1) :: marker rkeys.length ++ later.2)
      else
        let n := newrk r.rkeys rkoff
        let later := repackBlock old oldest
          { r with heap := sccs_addStr r.heap (heapStr old dkoff) } rest
        (later.1, (n, r.heap.len + 1) :: marker n ++ later.2)

def repackLoop (s : Sccs) (oldest : Hash) : Repack → List Nat → Repack × List (Nat × Block)
  | r, [] => (r, [])
  | r, d :: older =>
    match s.weave d with
    | none => repackLoop s oldest r older
    | some block =>
      let here := repackBlock s.heap oldest r block
      let later := repackLoop s oldest here.1 older
      (later.1, (d, here.2) :: later.2)

def addRootkeys (old : Heap) (h : Heap) (rkeys : List Nat) : Heap :=
  rkeys.foldl (fun h rkoff => sccs_addUniqRootkey h (heapStr old rkoff)) h

/-- The offsets of the finished heap; `seen` is `tiphash`. -/
def placeBlock (rkoffs : List Nat) (tipkeys_start : Nat) : List Nat → Block → List Nat × Block
  | seen, [] => (seen, [])
  | seen, (n, len) :: rest =>
    let rkoff := (rkoffs[n - 1]?).getD 0
    if len = 0 then
      let later := placeBlock rkoffs tipkeys_start seen rest
      (later.1, (rkoff, 0) :: later.2)
    else
      let dkoff := if n ∈ seen then len - 1 else len - 1 + tipkeys_start
      let later := placeBlock rkoffs tipkeys_start (n :: seen) rest
      (later.1, (rkoff, dkoff) :: later.2)

def placeBlocks (rkoffs : List Nat) (tipkeys_start : Nat) :
    List Nat → List (Nat × Block) → List (Nat × Block)
  | _, [] => []
  | seen, (d, block) :: older =>
    let here := placeBlock rkoffs tipkeys_start seen block
    (d, here.2) :: placeBlocks rkoffs tipkeys_start here.1 older

/-- `fields` is the new heap with everything but the weave. -/
def bin_heapRepack (changesetKey BAMkey : Key → Bool) (s : Sccs) (fields : Heap) : Sccs :=
  let oldest := oldestKeys changesetKey BAMkey s ((List.range s.table).map (· + 1))
  let packed := repackLoop s oldest.hash { rkeys := [], tipkeys := [], heap := fields }
    ((List.range s.table).reverse.map (· + 1))
  let tipkeys_start := packed.1.heap.len
  let withTips := { packed.1.heap with strs := packed.1.heap.strs ++ packed.1.tipkeys }
  let heap := addRootkeys s.heap withTips (oldest.comprk ++ oldest.bamrk ++ packed.1.rkeys)
  let rkoffs := packed.1.rkeys.map (fun rkoff => sccs_hasRootkey heap (heapStr s.heap rkoff))
  let placed := placeBlocks rkoffs tipkeys_start [] packed.2
  { s with
    heap := heap
    weave := fun d => (placed.find? (fun entry => entry.1 = d)).map (·.2) }

end BitKeeper.CsetWeave
