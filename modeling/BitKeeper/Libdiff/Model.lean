import Mathlib

/-!
The differ of `libdiff.c`. The arrays are counted from one as in the source; a list stands for such
an array from its first element on.
-/

namespace BitKeeper.Libdiff

open Function

inductive Side where
  | left
  | right
  deriving DecidableEq

inductive Stop where
  | wrap
  | assertion
  | fuel
  deriving DecidableEq

/-- `DF_LEFT` and `DF_RIGHT` of `start` and `len`. -/
structure Hunk where
  lstart : Nat
  llen : Nat
  rstart : Nat
  rlen : Nat
  deriving DecidableEq

def Hunk.lend (h : Hunk) : Nat := h.lstart + h.llen

def Hunk.rend (h : Hunk) : Nat := h.rstart + h.rlen

/-! ### Hashes -/

section Hashing
variable {α : Type}

structure Thing (α : Type) where
  item : α
  side : Side
  both : Bool

abbrev Table (α : Type) := Nat → Option (Thing α)

/-- Everything that is asked of the items; `dcmp` is true where the source
returns zero. -/
structure Items (α : Type) where
  dcmp : α → α → Bool
  dhash : α → Nat

variable (items : Items α)

def hashIt (a : α) : Nat := if items.dhash a = 0 then 1 else items.dhash a

/-- The slots from `dh` on; the count is how many there are up to `2^32 - 1`. -/
def probe (h : Table α) (side : Side) (a : α) : Nat → Nat → Except Stop (Nat × Table α)
  | 0, _ => .error .wrap
  | left + 1, dh =>
    match h dh with
    | none => .ok (dh, update h dh (some { item := a, side := side, both := false }))
    | some t =>
      if items.dcmp a t.item then
        .ok (dh, if t.side ≠ side then update h dh (some { t with both := true }) else h)
      else probe h side a left (dh + 1)

def hashThings (side : Side) : List α → Table α → Except Stop (List Nat × Table α)
  | [], h => .ok ([], h)
  | a :: rest, h =>
    (probe items h side a (4294967296 - hashIt items a) (hashIt items a)).bind (fun found =>
      (hashThings side rest found.2).map (fun later => (found.1 :: later.1, later.2)))

end Hashing

/-- The marks of one side, from one on. -/
abbrev Marks := Nat → Bool

structure Reduced where
  red : List Nat
  idx : List Nat
  chg : Marks

/-- `i` is the place of the first hash. -/
def compressHashes {α : Type} (h : Table α) : Nat → List Nat → Except Stop Reduced
  | _, [] => .ok { red := [], idx := [], chg := fun _ => false }
  | i, u :: rest =>
    match h u with
    | none => .error .assertion
    | some t =>
      (compressHashes h (i + 1) rest).map (fun later =>
        if t.both then { later with red := u :: later.red, idx := i :: later.idx }
        else { later with chg := update later.chg i true })

/-! ### The middle snake -/

section Split
variable (same : Int → Int → Bool) (x1 x2 y1 y2 : Int)

def slideDown : Nat → Int → Int → Int
  | 0, x, _ => x
  | n + 1, x, y => if x < x2 ∧ y < y2 ∧ same (x + 1) (y + 1) then slideDown n (x + 1) (y + 1) else x

def slideUp : Nat → Int → Int → Int
  | 0, x, _ => x
  | n + 1, x, y => if x > x1 ∧ y > y1 ∧ same x y then slideUp n (x - 1) (y - 1) else x

structure Diags where
  kfmin : Int
  kfmax : Int
  krmin : Int
  krmax : Int
  vf : Int → Int
  vr : Int → Int

/-- The diagonals from `k` up; a point is the end of the middle snake. -/
def scanForward (odd : Bool) : Nat → Int → Diags → Option (Int × Int) × Diags
  | 0, _, s => (none, s)
  | n + 1, k, s =>
    if k ≤ s.kfmax then
      let start := if s.vf (k - 1) < s.vf (k + 1) then s.vf (k + 1) else s.vf (k - 1) + 1
      let x := slideDown same x2 y2 (x2 - start).toNat start (start - k)
      let s' := { s with vf := update s.vf k x }
      if odd ∧ s.krmin ≤ k ∧ k ≤ s.krmax ∧ s.vr k ≤ x then (some (x, x - k), s')
      else scanForward odd n (k + 2) s'
    else (none, s)

def scanReverse (odd : Bool) : Nat → Int → Diags → Option (Int × Int) × Diags
  | 0, _, s => (none, s)
  | n + 1, k, s =>
    if s.krmin ≤ k then
      let start := if s.vr (k - 1) < s.vr (k + 1) then s.vr (k - 1) else s.vr (k + 1) - 1
      let x := slideUp same x1 y1 (start - x1).toNat start (start - k)
      let s' := { s with vr := update s.vr k x }
      if ¬ odd ∧ s.kfmin ≤ k ∧ k ≤ s.kfmax ∧ x ≤ s.vf k then (some (x, x - k), s')
      else scanReverse odd n (k - 2) s'
    else (none, s)

def widenForward (kmin kmax : Int) (s : Diags) : Diags :=
  let s := if s.kfmin > kmin then
      { s with kfmin := s.kfmin - 1, vf := update s.vf (s.kfmin - 2) (x1 - 1) }
    else { s with kfmin := s.kfmin + 1 }
  if s.kfmax < kmax then
    { s with kfmax := s.kfmax + 1, vf := update s.vf (s.kfmax + 2) (x1 - 1) }
  else { s with kfmax := s.kfmax - 1 }

def widenReverse (kmin kmax : Int) (s : Diags) : Diags :=
  let s := if s.krmin > kmin then
      { s with krmin := s.krmin - 1, vr := update s.vr (s.krmin - 2) (x2 + 1) }
    else { s with krmin := s.krmin + 1 }
  if s.krmax < kmax then
    { s with krmax := s.krmax + 1, vr := update s.vr (s.krmax + 2) (x2 + 1) }
  else { s with krmax := s.krmax - 1 }

/-- `bestf` and `maxfx`. -/
def bestForward (vf : Int → Int) (kfmax : Int) : Nat → Int → Int × Int → Int × Int
  | 0, _, best => best
  | n + 1, k, best =>
    if k ≤ kfmax then
      let x := if y2 < min (vf k) x2 - k then y2 + k else min (vf k) x2
      let y := if y2 < min (vf k) x2 - k then y2 else min (vf k) x2 - k
      bestForward vf kfmax n (k + 2) (if best.1 < x + y then (x + y, x) else best)
    else best

/-- `bestb` and `maxbx`; `none` is `INT_MAX` in both. -/
def bestReverse (vr : Int → Int) (krmin : Int) : Nat → Int → Option (Int × Int) → Option (Int × Int)
  | 0, _, best => best
  | n + 1, k, best =>
    if krmin ≤ k then
      let x := if max x1 (vr k) - k < y1 then y1 + k else max x1 (vr k)
      let y := if max x1 (vr k) - k < y1 then y1 else max x1 (vr k) - k
      bestReverse vr krmin n (k - 2)
        (match best with
        | none => some (x + y, x)
        | some (bestb, maxbx) => if bestb > x + y then some (x + y, x) else some (bestb, maxbx))
    else best

def bestSplit (s : Diags) : Except Stop (Int × Int) :=
  let f := bestForward x2 y2 s.vf s.kfmax (s.kfmax - s.kfmin + 1).toNat s.kfmin (-1, -1)
  if f.2 = -1 then .error .assertion
  else
    match bestReverse x1 y1 s.vr s.krmin (s.krmax - s.krmin + 1).toNat s.krmax none with
    | none => .error .assertion
    | some b =>
      if (x2 + y2) - b.1 < f.1 - (x1 + y1) then .ok (f.2, f.1 - f.2)
      else .ok (b.2, b.1 - b.2)

def splitLoop (minimal : Bool) (max_steps : Nat) (odd : Bool) (kmin kmax : Int) :
    Nat → Nat → Diags → Except Stop ((Int × Int) × Diags)
  | 0, _, _ => .error .fuel
  | fuel + 1, d, s =>
    let s := widenForward x1 kmin kmax s
    let (found, s) := scanForward same x2 y2 odd (s.kfmax - s.kfmin + 1).toNat s.kfmin s
    match found with
    | some p => .ok (p, s)
    | none =>
      let s := widenReverse x2 kmin kmax s
      let (found, s) := scanReverse same x1 y1 odd (s.krmax - s.krmin + 1).toNat s.krmax s
      match found with
      | some p => .ok (p, s)
      | none =>
        if minimal ∨ d ≤ max_steps then splitLoop minimal max_steps odd kmin kmax fuel (d + 1) s
        else (bestSplit x1 x2 y1 y2 s).map (·, s)

/-- `vf` and `vr` come as the last call left them. -/
def dsplit1 (minimal : Bool) (max_steps : Nat) (vf vr : Int → Int) :
    Except Stop ((Int × Int) × Diags) :=
  let kf := x1 - y1
  let kr := x2 - y2
  splitLoop same x1 x2 y1 y2 minimal max_steps ((kr - kf) % 2 ≠ 0) (x1 - y2) (x2 - y1)
    (x2 - x1 + (y2 - y1) + 1).toNat 1
    { kfmin := kf, kfmax := kf, krmin := kr, krmax := kr
      vf := update vf kf x1, vr := update vr kr x2 }

end Split

/-! ### The recursion -/

section Recursion
variable (A B : Reduced)

def sameAt (x y : Nat) : Bool := A.red[x - 1]? == B.red[y - 1]?

def trimHead (x2 y2 : Nat) : Nat → Nat → Nat → Nat × Nat
  | 0, x1, y1 => (x1, y1)
  | n + 1, x1, y1 =>
    if x1 < x2 ∧ y1 < y2 ∧ sameAt A B (x1 + 1) (y1 + 1) then trimHead x2 y2 n (x1 + 1) (y1 + 1)
    else (x1, y1)

def trimTail (x1 y1 : Nat) : Nat → Nat → Nat → Nat × Nat
  | 0, x2, y2 => (x2, y2)
  | n + 1, x2, y2 =>
    if x1 < x2 ∧ y1 < y2 ∧ sameAt A B x2 y2 then trimTail x1 y1 n (x2 - 1) (y2 - 1) else (x2, y2)

def setMarks (idx : List Nat) (lo hi : Nat) (chg : Marks) : Marks :=
  fun i => chg i || decide (i ∈ (idx.drop lo).take (hi - lo))

structure Search where
  left : Marks
  right : Marks
  vf : Int → Int
  vr : Int → Int

def idiff (minimal : Bool) (max_steps : Nat) :
    Nat → Nat → Nat → Nat → Nat → Search → Except Stop Search
  | 0, _, _, _, _, _ => .error .fuel
  | fuel + 1, x1, x2, y1, y2, s =>
    if x1 ≤ x2 ∧ y1 ≤ y2 then
      let (x1, y1) := trimHead A B x2 y2 (x2 - x1) x1 y1
      let (x2, y2) := trimTail A B x1 y1 (x2 - x1) x2 y2
      if x1 = x2 then .ok { s with right := setMarks B.idx y1 y2 s.right }
      else if y1 = y2 then .ok { s with left := setMarks A.idx x1 x2 s.left }
      else
        (dsplit1 (fun x y => sameAt A B x.toNat y.toNat) x1 x2 y1 y2 minimal max_steps s.vf s.vr).bind
          (fun found =>
            let x := found.1.1
            let y := found.1.2
            if (x1 : Int) ≤ x ∧ x ≤ x2 ∧ (y1 : Int) ≤ y ∧ y ≤ y2 then
              (idiff minimal max_steps fuel x1 x.toNat y1 y.toNat
                { s with vf := found.2.vf, vr := found.2.vr }).bind
                (idiff minimal max_steps fuel x.toNat x2 y.toNat y2)
            else .error .assertion)
    else .error .assertion

end Recursion

/-- `while (x != 0) { x >>= 2; y <<= 1; }` -/
def effort : Nat → Nat → Nat → Nat
  | 0, _, y => y
  | n + 1, x, y => if x = 0 then y else effort n (x / 4) (y * 2)

/-! ### Moving the marks -/

section Moving
variable (h : List Nat) (n : Nat)

def hashAt (i : Nat) : Option Nat := h[i - 1]?

def setRange (lo hi : Nat) (value : Bool) (chg : Marks) : Marks :=
  fun i => if lo ≤ i ∧ i < hi then value else chg i

/-- `while ((i <= n) && (chg[i] == value)) i++` -/
def skipUp (chg : Marks) (value : Bool) : Nat → Nat → Nat
  | 0, i => i
  | m + 1, i => if i ≤ n ∧ chg i = value then skipUp chg value m (i + 1) else i

/-- `while ((a > 1) && (chg[a] == value)) --a` -/
def skipDown (chg : Marks) (value : Bool) : Nat → Nat
  | 0 => 0
  | a + 1 => if a + 1 > 1 ∧ chg (a + 1) = value then skipDown chg value a else a + 1

/-- How far the block from `a` up to `b` can move down, at most to `c`. -/
def moveDown (c : Nat) : Nat → Nat → Nat → Nat
  | 0, _, _ => 0
  | m + 1, a, b => if b ≤ c ∧ hashAt h a = hashAt h b then moveDown c m (a + 1) (b + 1) + 1 else 0

/-- How far the block behind `c` up to `d` can move up, at most to `b`. -/
def moveUp (b : Nat) : Nat → Nat → Nat → Nat
  | 0, _, _ => 0
  | m + 1, c, d => if b ≤ c ∧ hashAt h c = hashAt h d then moveUp b m (c - 1) (d - 1) + 1 else 0

/-- From the label `again` on: the marks, `a` and `b` with which the outer loop
goes on. -/
def closeGap : Nat → Nat → Nat → Nat → Nat → Marks → Except Stop (Marks × Nat × Nat)
  | 0, _, _, _, _, _ => .error .fuel
  | fuel + 1, a, b, c, d, chg =>
    let down := moveDown h c (c + 1 - b) a b
    let a1 := a + down
    let b1 := b + down
    let up := moveUp h b1 (c + 1 - b1) c d
    let c1 := c - up
    let d1 := d - up
    if b1 > c1 then
      let chg := setRange a1 b1 true (setRange a b false chg)
      let chg := setRange (c1 + 1) (d1 + 1) true (setRange (c + 1) (d + 1) false chg)
      let a := skipDown chg false (a1 - 1)
      if chg a = true then
        let b := a + 1
        let a := skipDown chg true a
        let a := if chg a = false then a + 1 else a
        closeGap fuel a b (a1 - 1) d1 chg
      else .ok (chg, a1, d1 + 1)
    else .ok (chg, c + 1, d + 1)

def gapLoop : Nat → Nat → Nat → Nat → Marks → Except Stop Marks
  | 0, _, _, _, _ => .error .fuel
  | fuel + 1, i, a, b, chg =>
    let i := skipUp n chg false (n + 1 - i) i
    if i ≥ n then .ok chg
    else
      let c := i - 1
      let i := skipUp n chg true (n + 1 - i) i
      let d := i - 1
      (closeGap h (n + 1) a b c d chg).bind (fun r => gapLoop fuel i r.2.1 r.2.2 r.1)

def shrink_gaps (chg : Marks) : Except Stop Marks :=
  let i := skipUp n chg false n 1
  if i ≥ n then .ok chg
  else
    let a := i
    let i := skipUp n chg true (n + 1 - i) i
    if i ≥ n then .ok chg else gapLoop h n (n + 1) i a i chg

inductive Pos where
  | start
  | end_
  | middle
  deriving DecidableEq

/-- How far the block from `a` up to `b` can be shifted up. -/
def shiftUp (chg : Marks) (a b : Nat) : Nat → Nat → Nat
  | 0, up => up
  | m + 1, up =>
    if a - up > 1 ∧ hashAt h (a - 1 - up) = hashAt h (b - 1 - up) ∧ chg (a - 1 - up) = false then
      shiftUp chg a b m (up + 1)
    else up

def shiftDown (chg : Marks) (a b : Nat) : Nat → Nat → Nat
  | 0, down => down
  | m + 1, down =>
    if b + down ≤ n ∧ hashAt h (a + down) = hashAt h (b + down) ∧ chg (b + down) = false then
      shiftDown chg a b m (down + 1)
    else down

section Cost
variable (dcost : Nat → Pos → Nat)

/-- The costs at the start, until one is zero; `a1` with the total. -/
def costStart (b1 : Nat) : Nat → Nat → Nat → Nat × Nat
  | 0, a1, total => (a1, total)
  | m + 1, a1, total =>
    if a1 < b1 ∧ dcost a1 .start ≠ 0 then costStart b1 m (a1 + 1) (total + dcost a1 .start)
    else (a1, total)

def costEnd (a1 : Nat) : Nat → Nat → Nat → Nat × Nat
  | 0, b1, total => (b1, total)
  | m + 1, b1, total =>
    if b1 > a1 ∧ dcost (b1 - 1) .end_ ≠ 0 then costEnd a1 m (b1 - 1) (total + dcost (b1 - 1) .end_)
    else (b1, total)

def costTotal (a1 b1 : Nat) : Nat :=
  let first := costStart dcost b1 (b1 - a1) a1 0
  let last := costEnd dcost first.1 (b1 - first.1) b1 first.2
  (List.range' first.1 (last.1 - first.1)).foldl (fun total i => total + dcost i .middle) last.2

/-- The cheapest start of the block, the lowest of equals; `lo` is the uppermost start. -/
def bestAlign (len : Nat) : Nat → Nat → Option (Nat × Nat) → Option (Nat × Nat)
  | 0, _, best => best
  | m + 1, a1, best =>
    let total := costTotal dcost a1 (a1 + len)
    bestAlign len m (a1 + 1)
      (match best with
      | none => some (total, a1)
      | some (least, at_) => if total ≤ least then some (total, a1) else some (least, at_))

def alignLoop : Nat → Nat → Marks → Except Stop Marks
  | 0, _, _ => .error .fuel
  | fuel + 1, a, chg =>
    let a := skipUp n chg false (n + 1 - a) a
    if a ≥ n then .ok chg
    else
      let b := skipUp n chg true (n + 1 - a) a
      let up := shiftUp h chg a b a 0
      let down := shiftDown h n chg a b (n + 1 - b) 0
      if up + down > 0 then
        match bestAlign dcost (b - a) (up + down + 1) (a - up) none with
        | none => .error .assertion
        | some (_, a1) =>
          if a1 ≠ a then
            let b1 := a1 + (b - a)
            alignLoop fuel b1 (setRange a1 b1 true (setRange a b false chg))
          else alignLoop fuel b chg
      else alignLoop fuel b chg

def align_blocks (chg : Marks) : Except Stop Marks := alignLoop h n dcost (n + 1) 1 chg

end Cost

end Moving

/-! ### Hunks -/

/-- `x` and `y` are the next items on both sides. -/
def sesLoop (left right : Marks) (n m : Nat) : Nat → Nat → Nat → Except Stop (List Hunk)
  | 0, _, _ => .error .fuel
  | fuel + 1, x, y =>
    if x ≤ n ∨ y ≤ m then
      if left x ∨ right y then
        let x' := skipUp n left true (n + 1 - x) x
        let y' := skipUp m right true (m + 1 - y) y
        (sesLoop left right n m fuel (if x' ≤ n then x' + 1 else x')
          (if y' ≤ m then y' + 1 else y')).map
          ({ lstart := x, llen := x' - x, rstart := y, rlen := y' - y } :: ·)
      else sesLoop left right n m fuel (if x ≤ n then x + 1 else x) (if y ≤ m then y + 1 else y)
    else .ok []

/-- The hunks count from the start of the range. -/
def ses (range : Hunk) (left right : Marks) : Except Stop (List Hunk) :=
  (sesLoop left right range.llen range.rlen (range.llen + range.rlen + 1) 1 1).map (fun hunks =>
    hunks.map (fun h =>
      { h with lstart := h.lstart + range.lstart - 1, rstart := h.rstart + range.rstart - 1 }))

/-- The source's cost function takes the place in the whole file. -/
def costIt (range : Hunk) (dcost : Side → Nat → Pos → Nat) (side : Side) (i : Nat) (pos : Pos) :
    Nat :=
  match side with
  | .left => dcost .left (range.lstart + i - 1) pos
  | .right => dcost .right (range.rstart + i - 1) pos

section Items
variable {α : Type} (items : Items α)

def moveMarks (range : Hunk) (dcost : Option (Side → Nat → Pos → Nat)) (hl hr : List Nat)
    (left right : Marks) :
    Except Stop (Marks × Marks) :=
  (shrink_gaps hl range.llen left).bind (fun left =>
    (shrink_gaps hr range.rlen right).bind (fun right =>
      match dcost with
      | none => .ok (left, right)
      | some dcost =>
        (align_blocks hl range.llen (costIt range dcost .left) left).bind (fun left =>
          (align_blocks hr range.rlen (costIt range dcost .right) right).map
            (fun right => (left, right)))))

/-- `left` and `right` are the items of the range; `vf` and `vr` what `malloc`
returned. -/
def diff_items (lstart rstart : Nat) (minimal : Bool) (dcost : Option (Side → Nat → Pos → Nat))
    (left right : List α) (vf vr : Int → Int) : Except Stop (List Hunk) :=
  let range : Hunk :=
    { lstart := lstart, llen := left.length, rstart := rstart, rlen := right.length }
  if left.length = 0 ∨ right.length = 0 then
    if left.length = 0 ∧ right.length = 0 then .ok [] else .ok [range]
  else
    (hashThings items .left left (fun _ => none)).bind (fun l =>
      (hashThings items .right right l.2).bind (fun r =>
        (compressHashes r.2 1 l.1).bind (fun A =>
          (compressHashes r.2 1 r.1).bind (fun B =>
            let max_steps := max 256 (effort 32 (A.red.length + B.red.length + 3) 1)
            (idiff A B minimal max_steps (A.red.length + B.red.length + 1) 0 A.red.length 0
              B.red.length
              { left := A.chg, right := B.chg, vf := vf, vr := vr }).bind (fun s =>
                (moveMarks range dcost l.1 r.1 s.left s.right).bind (fun marks =>
                  ses range marks.1 marks.2))))))

end Items

/-- The run between two hunks; `none` is the edge of the range. -/
def diff_mkCommon (range : Hunk) (from_ upto : Option Hunk) : Except Stop Hunk :=
  let lstart : Nat := match from_ with
    | some h => h.lend
    | none => range.lstart
  let rstart : Nat := match from_ with
    | some h => h.rend
    | none => range.rstart
  let lend : Nat := match upto with
    | some h => h.lstart
    | none => range.lend
  let rend : Nat := match upto with
    | some h => h.rstart
    | none => range.rend
  if (lend : Int) - lstart = (rend : Int) - rstart then
    .ok { lstart := lstart, llen := lend - lstart, rstart := rstart, rlen := rend - rstart }
  else .error .assertion

end BitKeeper.Libdiff
