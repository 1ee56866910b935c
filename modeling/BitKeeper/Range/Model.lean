import BitKeeper.Graph.Table
import BitKeeper.Lib.Wave

/-!
The range walks over the delta graph: `walkrevs` and the loops over it, `range_markMeta`, which
extends a set of real deltas to the tag deltas, and `range_gone`. A loop over the table recurses on
the serial it stands at.
-/

namespace BitKeeper.Range

structure Color where
  red : Bool
  blue : Bool
  green : Bool
deriving DecidableEq, Repr

namespace Color

def clear : Color := ⟨false,false,false⟩

def D_RED : Color := ⟨true,false,false⟩

def D_BLUE : Color := ⟨false,true,false⟩

def D_GREEN : Color := ⟨false,false,true⟩

def or (a b : Color) : Color := ⟨a.red || b.red,a.blue || b.blue,a.green || b.green⟩

def and (a b : Color) : Color := ⟨a.red && b.red,a.blue && b.blue,a.green && b.green⟩

def minus (a b : Color) : Color := ⟨a.red && !b.red,a.blue && !b.blue,a.green && !b.green⟩

end Color

open Color

structure Flags where
  color : Color
  set : Bool
  gone : Bool
deriving DecidableEq, Repr

namespace Flags

def clear : Flags := ⟨Color.clear,false,false⟩

def or (a b : Flags) : Flags := ⟨a.color.or b.color,a.set || b.set,a.gone || b.gone⟩

end Flags

def D_SET : Flags := { Flags.clear with set := true }

def D_GONE : Flags := { Flags.clear with gone := true }

structure Sccs where
  flags : Nat → Flags
  rstart : Nat
  rstop : Nat
  /-- `S_SET` of the state word. -/
  stateSet : Bool
  hasgone : Bool

def Sccs.update (s : Sccs) (d : Nat) (f : Flags → Flags) : Sccs :=
  { s with flags := Function.update s.flags d (f (s.flags d)) }

def Sccs.orColor (s : Sccs) (d : Nat) (c : Color) : Sccs :=
  s.update d fun f => { f with color := f.color.or c }

def Sccs.clearColor (s : Sccs) (d : Nat) (c : Color) : Sccs :=
  s.update d fun f => { f with color := f.color.minus c }

structure Mode where
  either : Bool
  both : Bool
  tip : Bool
  gca : Bool
deriving DecidableEq, Repr

/-- No flag: red minus blue. -/
def Mode.plain : Mode := ⟨false,false,false,false⟩

structure WrData where
  flags : Mode
  d : Nat
  last : Nat
  marked : Int
  all : Bool
  mask : Color
  want : Color
  color : Color

/-- The iterator together with the file it walks over. -/
structure Walk where
  wr : WrData
  s : Sccs

/-- `EACH_PARENT`: the merge parent is looked at only behind a parent; slot zero is empty. -/
def eachParent (g : Graph) (d : Nat) : List Nat :=
  if d = 0 ∨ g.parent d = 0 then []
  else if g.merge d = 0 then [g.parent d] else [g.parent d,g.merge d]

def markDelta (w : Walk) (d : Nat) (change : Color) : Walk :=
  let before := (w.s.flags d).color.and w.wr.mask
  if change.minus before = clear then w
  else
    { s := w.s.orColor d change
      wr := { w.wr with
          last := if d < w.wr.last then d else w.wr.last
          marked := w.wr.marked - (if before = clear then 0 else 1) +
            (if before.or change = w.wr.mask then 0 else 1) } }

/-- Walk to the top of a list and colour its members. -/
def markList (w : Walk) (change : Color) : List Nat → Walk
  | [] => w
  | d :: rest =>
    markList (markDelta { w with wr := { w.wr with d := if w.wr.d < d then d else w.wr.d } } d change)
      change rest

/-- `red` is `none` for a null pointer: no upper bound. -/
def walkrevs_setup (g : Graph) (s : Sccs) (blue : List Nat) (red : Option (List Nat))
    (flags : Mode) : Walk :=
  let flags := if flags.gca then { flags with both := true, tip := true } else flags
  let want := if flags.both then D_RED.or D_BLUE else D_RED
  let mask := if flags.both then (D_BLUE.or D_RED).or D_GREEN else D_BLUE.or D_RED
  let wr : WrData :=
    { flags := flags, d := 0, last := 0, marked := 0, all := false, mask := mask, want := want,
      color := Color.clear }
  let s := { s with rstop := 0 }
  let w : Walk := match red with
    | some list => markList ⟨{ wr with last := g.table },s⟩ D_RED list
    | none => ⟨{ wr with all := true, marked := 1, last := g.table, d := g.table },s⟩
  let w := markList w D_BLUE blue
  { w with wr := { w.wr with d := w.wr.d + 1 } }

def markParents (g : Graph) (w : Walk) (d : Nat) (color : Color) : Walk :=
  (eachParent g d).foldl (fun w e => markDelta w e color) w

def walkrevs_prune (g : Graph) (w : Walk) (d : Nat) : Walk := markParents g w d w.wr.mask

/-- The colours a delta has when the walk comes to it. -/
def arrive (w : Walk) (d : Nat) : Walk := if w.wr.all then markDelta w d D_RED else w

/-- The delta loses its colours and its parents get them. -/
def handDown (g : Graph) (w : Walk) (d : Nat) (color : Color) : Walk :=
  markParents g ⟨{ w.wr with color := color },w.s.clearColor d color⟩ d color

/-- One turn of `walkrevs` at a real delta; the flag says that the delta is returned. -/
def visit (g : Graph) (w : Walk) (d : Nat) : Walk × Bool :=
  let w := arrive w d
  let color := (w.s.flags d).color.and w.wr.mask
  if color = clear then (⟨{ w.wr with color := color },w.s⟩, false)
  else
    let w := handDown g w d color
    if color = w.wr.mask then (w, false)
    else
      let w : Walk := ⟨{ w.wr with marked := w.wr.marked - 1 },w.s⟩
      if color.and w.wr.want = w.wr.want ∨ w.wr.flags.either = true then
        let w := if w.wr.flags.tip then walkrevs_prune g w d else w
        (⟨{ w.wr with d := d },w.s⟩, true)
      else (w, false)

/-- The loop of `walkrevs`: zero when there is nothing left. -/
def walkFrom (g : Graph) : Nat → Walk → Walk × Nat
  | 0, w => (w, 0)
  | d + 1, w =>
    if w.wr.marked ≤ 0 then (w, 0)
    else if g.tag (d + 1) then walkFrom g d w
    else
      let turn := visit g w (d + 1)
      if turn.2 then (turn.1, d + 1) else walkFrom g d turn.1

def walkrevs (g : Graph) (w : Walk) : Walk × Nat := walkFrom g (w.wr.d - 1) w

def doneFrom (last : Nat) (color : Color) : Nat → Sccs → Sccs
  | 0, s => s
  | d + 1, s => if d + 1 < last then s else doneFrom last color d (s.clearColor (d + 1) color)

def walkrevs_done (w : Walk) : Sccs := doneFrom w.wr.last w.wr.mask (w.wr.d - 1) w.s

/-- `while (d = walkrevs(&wr)) addArray(&list, &d)`; every call moves the walk down, so the table
bounds the calls. -/
def collectLoop (g : Graph) : Nat → Walk → List Nat → Walk × List Nat
  | 0, w, list => (w, list)
  | fuel + 1, w, list =>
    let turn := walkrevs g w
    if turn.2 = 0 then (turn.1, list) else collectLoop g fuel turn.1 (list ++ [turn.2])

def walkrevs_collect (g : Graph) (s : Sccs) (blue : List Nat) (red : Option (List Nat))
    (flags : Mode) : Sccs × List Nat :=
  let out := collectLoop g (g.table + 2) (walkrevs_setup g s blue red flags) []
  (walkrevs_done out.1, out.2)

def rangeLoop (g : Graph) (fcn : Option (Sccs → Nat → Sccs × Int)) : Nat → Walk → Walk × Int
  | 0, w => (w, 0)
  | fuel + 1, w =>
    let turn := walkrevs g w
    let d := turn.2
    if d = 0 then (turn.1, 0)
    else
      let w := turn.1
      let w : Walk := if w.wr.flags.either then { w with s := w.s.orColor d w.wr.color } else w
      let answer : Sccs × Int := match fcn with
        | some f => f w.s d
        | none => (w.s, 0)
      let w : Walk := { w with s := answer.1 }
      if 0 < answer.2 then (w, answer.2)
      else if answer.2 < 0 then
        let w : Walk := if w.wr.flags.either then { w with s := w.s.clearColor d w.wr.color } else w
        rangeLoop g fcn fuel (walkrevs_prune g w d)
      else
        let s := w.s
        rangeLoop g fcn fuel
          { w with s := { s with rstop := if s.rstop = 0 then d else s.rstop, rstart := d } }

/-- Nothing is returned if the final assertion fails. -/
def range_walkrevs (g : Graph) (s : Sccs) (blue : List Nat) (red : Option (List Nat))
    (flags : Mode) (fcn : Option (Sccs → Nat → Sccs × Int)) : Option (Sccs × Int) :=
  let out := rangeLoop g fcn (g.table + 2) (walkrevs_setup g s blue red flags)
  if out.2 ≠ 0 ∨ out.1.wr.marked = (if out.1.wr.all then 1 else 0) then
    some (walkrevs_done out.1, out.2)
  else none

def walkrevs_setFlags (token : Flags) (s : Sccs) (d : Nat) : Sccs × Int :=
  (s.update d fun f => f.or token, 0)

/-! ### Tags -/

/-- The first loop of `range_markMeta`: outside the set and its ancestors all gets blue, between
`lower` and `upper`. -/
structure Region where
  s : Sccs
  lower : Nat
  upper : Nat

def redParent (s : Sccs) (e : Nat) : Sccs :=
  if e ≠ 0 ∧ (s.flags e).set = false ∧ (s.flags e).color.red = false then s.orColor e D_RED else s

def regionAt (g : Graph) (r : Region) (d : Nat) : Region :=
  if g.tag d then r
  else if (r.s.flags d).set = false ∧ (r.s.flags d).color.red = false then
    { s := r.s.orColor d D_BLUE, upper := if r.upper = 0 then d else r.upper, lower := d }
  else
    { r with s := redParent (redParent (r.s.clearColor d D_RED) (g.parent d)) (g.merge d) }

def regionFrom (g : Graph) : Nat → Region → Region
  | 0, r => r
  | d + 1, r => regionFrom g d (regionAt g r (d + 1))

/-- `for (e = ...; e && TAG(s, e); e = PARENT(s, e))`; parents are smaller, so
`fuel = e` is enough. -/
def realFrom (g : Graph) : Nat → Nat → Nat
  | 0, e => e
  | fuel + 1, e => if e ≠ 0 ∧ g.tag e = true then realFrom g fuel (g.parent e) else e

/-- The real delta a tag delta tags. -/
def tagged (g : Graph) (d : Nat) : Nat := realFrom g d (g.parent d)

def metaAt (g : Graph) (r : Region) (d : Nat) : Region :=
  if g.tag d = false then r
  else if (r.s.flags d).set then r
  else
    let e := tagged g d
    if (r.s.flags e).color.blue = true ∨ (g.ptag d ≠ 0 ∧ (r.s.flags (g.ptag d)).color.blue = true) ∨
        (g.mtag d ≠ 0 ∧ (r.s.flags (g.mtag d)).color.blue = true) then
      { r with s := r.s.orColor d D_BLUE, upper := if r.upper < d then d else r.upper }
    else if (r.s.flags e).set = true ∨ (g.ptag d ≠ 0 ∧ (r.s.flags (g.ptag d)).set = true) ∨
        (g.mtag d ≠ 0 ∧ (r.s.flags (g.mtag d)).set = true) then
      let s := r.s.update d fun f => { f with set := true }
      { r with s := { s with rstop := if s.rstop < d then d else s.rstop } }
    else r

def blueFrom (lower : Nat) : Nat → Sccs → Sccs
  | 0, s => s
  | d + 1, s =>
    let s := s.clearColor (d + 1) D_BLUE
    if d + 1 = lower then s else blueFrom lower d s

def range_markMeta (g : Graph) (s : Sccs) : Sccs :=
  if s.rstart = 0 ∨ s.rstop = 0 then s
  else
    let r := regionFrom g g.table ⟨s,0,0⟩
    let d := if r.lower ≠ 0 ∧ r.lower < r.s.rstart then r.lower else r.s.rstart
    let r := (List.range' d (g.table + 1 - d)).foldl (metaAt g) r
    blueFrom r.lower r.upper r.s

def goneAt (dflags : Flags) (out : Sccs × Nat) (d : Nat) : Sccs × Nat :=
  if (out.1.flags d).set then
    (out.1.update d fun f => { f with set := false }.or dflags, out.2 + 1)
  else out

def goneFrom (dflags : Flags) (rstart : Nat) : Nat → Sccs × Nat → Sccs × Nat
  | 0, out => out
  | d + 1, out =>
    if d + 1 = rstart then goneAt dflags out (d + 1)
    else goneFrom dflags rstart d (goneAt dflags out (d + 1))

def range_gone (g : Graph) (s : Sccs) (dlist : List Nat) (dflags : Flags) : Option (Sccs × Nat) :=
  (range_walkrevs g s dlist none Mode.plain (some (walkrevs_setFlags D_SET))).map fun walked =>
    let s := range_markMeta g walked.1
    let out := goneFrom dflags s.rstart s.rstop (s, 0)
    let s := out.1
    let s := { s with stateSet := if dflags.set then s.stateSet else false }
    let s := { s with hasgone := if dflags.gone then true else s.hasgone }
    (s, out.2)

end BitKeeper.Range
