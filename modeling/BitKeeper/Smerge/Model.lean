import BitKeeper.Libdiff.Model

/-!
The three-way merge of `smerge.c`. A line is its sequence number and its text; the fourth file is the
GCA once more, read for the deletions of the other side.
-/

namespace BitKeeper.Smerge

open Libdiff (Hunk)

inductive Side where
  | left
  | right
  | gca
  | gcar
  deriving DecidableEq

/-- The order of the loops up to `NFILES`. -/
def Side.all : List Side := [.left,.right,.gca,.gcar]

structure Line (T : Type) where
  seq : Nat
  text : T
  deriving DecidableEq

/-- `~0`, the sequence number behind the last line. -/
def eof : Nat := 4294967295

/-- The four files as `file_init` reads them from one weave. -/
structure Files (T : Type) where
  body : Side → List (Line T)
  increasing : ∀ side, (body side).Pairwise (fun a b => a.seq < b.seq)
  numbered : ∀ side, ∀ line ∈ body side, line.seq ≠ 0 ∧ line.seq < eof
  sameText : ∀ side side', ∀ line ∈ body side, ∀ line' ∈ body side',
    line.seq = line'.seq → line.text = line'.text
  sameGca : body .gcar = body .gca

abbrev Marks := Side → Nat

inductive MergeFcn where
  | merge_conflicts
  | merge_same_changes
  | merge_only_one
  | merge_content
  | merge_common_header
  | merge_added_oneside
  | merge_common_footer
  | merge_common_deletes
  | merge_with_following_gca
  deriving DecidableEq

/-- The functions numbered 9, 1, 2, 3, 4, 7, 5, 6 and 8, in the order they run. -/
def mergefcns : List MergeFcn :=
  [.merge_conflicts,.merge_same_changes,.merge_only_one,.merge_content,.merge_common_header,
    .merge_added_oneside,.merge_common_footer,.merge_common_deletes,.merge_with_following_gca]

/-- `conflct` without its links. -/
structure Region (T : Type) where
  start : Marks
  end_ : Marks
  start_seq : Nat
  end_seq : Nat
  merged : Option (List (Line T))
  split : Bool
  algos : List MergeFcn

inductive Stop where
  | assertion
  | fuel
  deriving DecidableEq

variable {T : Type}

section Reading
variable (f : Files T)

def Files.n (side : Side) : Nat := (f.body side).length

def Files.size : Nat := f.n .left + f.n .right + f.n .gca + f.n .gcar

def Files.seqAt (side : Side) (i : Nat) : Nat := match (f.body side)[i]? with
  | some line => line.seq
  | none => eof

def Files.textAt (side : Side) (i : Nat) : Option T := ((f.body side)[i]?).map Line.text

def Region.lines (c : Region T) (side : Side) : List (Line T) :=
  ((f.body side).drop (c.start side)).take (c.end_ side - c.start side)

def Region.texts (c : Region T) (side : Side) : List T := (c.lines f side).map Line.text

end Reading

def Region.len (c : Region T) (side : Side) : Nat := c.end_ side - c.start side

/-! ### `find_conflicts` -/

section Find
variable (f : Files T)

def minlen (mk : Marks) : Nat := min (min (f.n .left - mk .left) (f.n .right - mk .right))
    (min (f.n .gca - mk .gca) (f.n .gcar - mk .gcar))

/-- The loop that assumes that everything matches. -/
def matching (mk : Marks) : Nat → Nat → Nat
  | 0, j => j
  | left + 1, j =>
    if f.seqAt .left (mk .left + j) = f.seqAt .right (mk .right + j) ∧
        f.seqAt .left (mk .left + j) = f.seqAt .gca (mk .gca + j) ∧
        f.seqAt .left (mk .left + j) = f.seqAt .gcar (mk .gcar + j) then
      matching mk left (j + 1)
    else j

def catchUp (side : Side) (maxseq : Nat) (i : Nat) : Nat :=
  i + (((f.body side).drop i).takeWhile (fun line => line.seq < maxseq)).length

def catchUpAll : List Side → Nat → Marks → Marks
  | [], _, mk => mk
  | side :: rest, maxseq, mk =>
    let i := catchUp f side maxseq (mk side)
    catchUpAll rest (max maxseq (f.seqAt side i)) (Function.update mk side i)

/-- The `do` loop, until no side has to move. -/
def findEnd : Nat → Marks → Except Stop Marks
  | 0, _ => .error .fuel
  | fuel + 1, mk =>
    let maxseq := Side.all.foldl (fun maxseq side => max maxseq (f.seqAt side (mk side))) 0
    let mk' := catchUpAll f Side.all maxseq mk
    if Side.all.all (fun side => mk' side == mk side) then .ok mk' else findEnd fuel mk'

def conflictAt (mk mk' : Marks) : Except Stop (Region T) :=
  if f.seqAt .left (mk' .left) ≠ 0 ∧
      Side.all.all (fun side => f.seqAt .left (mk' .left) == f.seqAt side (mk' side)) then
    .ok
      { start := mk, end_ := mk'
        start_seq := if mk .left > 0 then f.seqAt .left (mk .left - 1) else 0
        end_seq := f.seqAt .left (mk' .left)
        merged := none, split := false, algos := [] }
  else .error .assertion

def findLoop : Nat → Marks → Except Stop (List (Region T))
  | 0, _ => .error .fuel
  | fuel + 1, mk =>
    let j := matching f mk (minlen f mk) 0
    let here : Marks := fun side => mk side + j
    if Side.all.all (fun side => f.n side ≤ here side) then .ok []
    else
      (findEnd f (f.size + 1) here).bind (fun mk' =>
        (conflictAt f here mk').bind (fun p => (findLoop fuel mk').map (p :: ·)))

def find_conflicts : Except Stop (List (Region T)) := findLoop f (f.size + 1) (fun _ => 0)

end Find

/-! ### Joining and splitting regions -/

abbrev Outcome (T : Type) := Except Stop (Option (Region T × List (Region T)))

section Merge
variable [DecidableEq T] (f : Files T)

def samedata (c : Region T) (l r : Side) : Bool := c.texts f l = c.texts f r

def contains_line (c : Region T) (line : Option T) : Bool :=
  Side.all.any (fun side => (c.texts f side).any (fun text => some text = line))

def merge_conflicts (head : Region T) : List (Region T) → Outcome T
  | [] => .ok none
  | tmp :: rest =>
    if head.split then .ok none
    else
      let line := f.textAt .left (head.end_ .left)
      if (tmp.start .left = head.end_ .left + 1 ∧
        (contains_line f head line ∨ contains_line f tmp line)) ∨
          tmp.start .left = head.end_ .left then
        if tmp.end_seq = 0 then .error .assertion
        else .ok (some ({ head with end_ := tmp.end_, end_seq := tmp.end_seq }, rest))
      else .ok none

def split_conflict (c : Region T) (next : List (Region T)) (splitidx : Marks) : Outcome T :=
  let seq := f.seqAt .gca (c.start .gca + splitidx .gca)
  if seq = 0 then .error .assertion
  else
    let here : Marks := fun side => c.start side + splitidx side
    let newc : Region T :=
      { start := here, end_ := c.end_, start_seq := seq, end_seq := c.end_seq
        merged := none, split := false, algos := [] }
    .ok (some ({ c with end_ := here, end_seq := seq, split := true }, newc :: next))

/-- The lines left and right both start with, and how many of them the GCA starts with as well. -/
def commonStart : List T → List T → List T → Bool → Nat × Nat
  | l :: ls, r :: rs, gs, chkgca =>
    if l = r then
      match chkgca, gs with
      | true, g :: gs =>
        if l = g then
          let more := commonStart ls rs gs true
          (more.1 + 1, more.2 + 1)
        else
          let more := commonStart ls rs gs false
          (more.1 + 1, more.2)
      | _, gs =>
        let more := commonStart ls rs gs false
        (more.1 + 1, more.2)
    else (0, 0)
  | _, _, _, _ => (0, 0)

def merge_common_header (c : Region T) (next : List (Region T)) : Outcome T :=
  let found := commonStart (c.texts f .left) (c.texts f .right) (c.texts f .gca) true
  if found.1 = 0 ∨ found.1 = c.len .left ∧ found.1 = c.len .right then .ok none
  else split_conflict f c next (fun side =>
    match side with
    | .left => found.1
    | .right => found.1
    | .gca => found.2
    | .gcar => found.2)

def merge_common_footer (c : Region T) (next : List (Region T)) : Outcome T :=
  let found :=
    commonStart (c.texts f .left).reverse (c.texts f .right).reverse (c.texts f .gca).reverse true
  if found.1 = 0 ∨ found.1 = c.len .left ∧ found.1 = c.len .right then .ok none
  else split_conflict f c next (fun side =>
    match side with
    | .left => c.len .left - found.1
    | .right => c.len .right - found.1
    | .gca => c.len .gca - found.2
    | .gcar => c.len .gcar - found.2)

inductive DiffChar where
  | same
  | del
  | ins
  deriving DecidableEq

/-- `unidiff`: a diff by sequence numbers; `del` and `ins` are not written yet. -/
def unidiffLoop : Nat → List (Line T) → List (Line T) → List (DiffChar × Line T) →
    List (DiffChar × Line T) → List (DiffChar × Line T)
  | 0, _, _, del, ins => del ++ ins
  | _ + 1, [], [], del, ins => del ++ ins
  | fuel + 1, l :: ls, [], del, ins => unidiffLoop fuel ls [] (del ++ [(.del, l)]) ins
  | fuel + 1, [], r :: rs, del, ins => unidiffLoop fuel [] rs del (ins ++ [(.ins, r)])
  | fuel + 1, l :: ls, r :: rs, del, ins =>
    if l.seq < r.seq then unidiffLoop fuel ls (r :: rs) (del ++ [(.del, l)]) ins
    else if r.seq < l.seq then unidiffLoop fuel (l :: ls) rs del (ins ++ [(.ins, r)])
    else del ++ ins ++ (.same, l) :: unidiffLoop fuel ls rs [] []

def unidiff (c : Region T) (left_ right_ : Side) : List (DiffChar × Line T) :=
  unidiffLoop (c.len left_ + c.len right_) (c.lines f left_) (c.lines f right_) [] []

def deletesAtEnd (diffs : List (DiffChar × Line T)) : Nat :=
  (diffs.reverse.takeWhile (fun d => d.1 = .del)).length

def merge_common_deletes (c : Region T) (next : List (Region T)) : Outcome T :=
  let cnt := min (deletesAtEnd (unidiff f c .gca .left)) (deletesAtEnd (unidiff f c .gcar .right))
  if cnt = 0 then .ok none
  else split_conflict f c next (fun side =>
    match side with
    | .left => c.len .left
    | .right => c.len .right
    | .gca => c.len .gca - cnt
    | .gcar => c.len .gcar - cnt)

def addedBefore (c : Region T) (side : Side) (seq : Nat) : Nat :=
  ((c.lines f side).takeWhile (fun line => line.seq < seq)).length

def merge_added_oneside (c : Region T) (next : List (Region T)) : Outcome T :=
  if Side.all.any (fun side => c.end_ side == c.start side) then .ok none
  else
    let seq := f.seqAt .gca (c.start .gca)
    let split := fun side =>
      split_conflict f c next (Function.update (fun _ => 0) side (addedBefore f c side seq))
    if f.seqAt .left (c.start .left) = seq ∧ f.seqAt .right (c.start .right) < seq then split .right
    else if f.seqAt .right (c.start .right) = seq ∧ f.seqAt .left (c.start .left) < seq then
      split .left
    else .ok none

def samePrefix : List T → List T → Nat
  | a :: as, b :: bs => if a = b then samePrefix as bs + 1 else 0
  | _, _ => 0

/-- The common lines after the region. -/
def gapAfter (c : Region T) : List (Region T) → Nat
  | [] => f.n .gca - c.end_ .gca
  | next :: _ => next.start .gca - c.end_ .gca

def extendDown (c : Region T) (next : List (Region T)) (side : Side) : Outcome T :=
  let gap := min (c.len side) (gapAfter f c next)
  let j := samePrefix ((c.texts f side).take gap)
    ((((f.body .gca).drop (c.end_ .gca)).take gap).map Line.text)
  if j = 0 then .ok none
  else
    .ok (some ({ c with end_ := fun side => c.end_ side + j
                        end_seq := f.seqAt .gca (c.end_ .gca + j) }, next))

def merge_with_following_gca (c : Region T) (next : List (Region T)) : Outcome T :=
  if c.len .left = 0 ∧ c.len .right ≠ 0 then extendDown f c next .right
  else if c.len .right = 0 ∧ c.len .left ≠ 0 then extendDown f c next .left
  else .ok none

/-! ### Automerges -/

def merge_same_changes (c : Region T) (next : List (Region T)) : Outcome T :=
  if samedata f c .left .right then .ok (some ({ c with merged := some (c.lines f .left) }, next))
  else .ok none

def merge_only_one (c : Region T) (next : List (Region T)) : Outcome T :=
  if samedata f c .gca .left then .ok (some ({ c with merged := some (c.lines f .right) }, next))
  else if samedata f c .gcar .right then
    .ok (some ({ c with merged := some (c.lines f .left) }, next))
  else .ok none

def slice (side : Side) (start len : Nat) : List (Line T) := ((f.body side).drop start).take len

/-- Is the block part of the hunk's new lines? -/
def blockInHunk (side : Side) (h : Hunk) (block : List T) : Bool :=
  (List.range (h.rlen + 1 - block.length)).any (fun j =>
    (slice f side (h.rstart + j) block.length).map Line.text = block)

/-- `h` before `other`; the sides are those whose new lines they hold. -/
def uniqueSeparator (side other : Side) (h g : Hunk) : Bool :=
  let block := (slice f .gca h.lend (g.lstart - h.lend)).map Line.text
  g.lstart - h.lend ≠ 0 ∧ ¬ blockInHunk f side h block ∧ ¬ blockInHunk f other g block

/-- May `h` be applied while the other side's next hunk is `g`? -/
def mayApply (side other : Side) (h : Hunk) : List Hunk → Bool
  | [] => true
  | g :: _ => ¬ g.lstart < h.lend ∧ ((h.llen ≠ 0 ∧ g.llen ≠ 0) ∨ uniqueSeparator f side other h g)

/-- Left is tried first; with no hunk to apply the merge is given up. -/
def contentLoop : Nat → Nat → List (Line T) → List Hunk → List Hunk → Option (Nat × List (Line T))
  | 0, ig, merged, _, _ => some (ig, merged)
  | fuel + 1, ig, merged, hl, hr =>
    let apply := fun (side : Side) (h : Hunk) =>
      merged ++ slice f .gca ig (h.lstart - ig) ++ slice f side h.rstart h.rlen
    match hl, hr with
    | [], [] => some (ig, merged)
    | h :: hl', _ =>
      if mayApply f .left .right h hr then
        contentLoop fuel (max ig h.lstart + h.llen) (apply .left h) hl' hr
      else
        match hr with
        | g :: hr' =>
          if mayApply f .right .left g hl then
            contentLoop fuel (max ig g.lstart + g.llen) (apply .right g) hl hr'
          else none
        | [] => none
    | [], g :: hr' => contentLoop fuel (max ig g.lstart + g.llen) (apply .right g) [] hr'

variable (diff_items : List T → List T → List Hunk)

def contentHunks (c : Region T) (side : Side) : List Hunk :=
  (diff_items (c.texts f .gca) (c.texts f side)).map (fun h =>
    { h with lstart := c.start .gca + h.lstart, rstart := c.start side + h.rstart })

def merge_content (c : Region T) (next : List (Region T)) : Outcome T :=
  if c.start .gca = c.end_ .gca then .ok none
  else
    let hl := contentHunks f diff_items c .left
    let hr := contentHunks f diff_items c .right
    match contentLoop f (hl.length + hr.length) (c.start .gca) [] hl hr with
    | none => .ok none
    | some (ig, merged) =>
      .ok (some ({ c with merged := some (merged ++ slice f .gca ig (c.end_ .gca - ig)) }, next))

/-! ### `resolve_conflict` -/

def MergeFcn.fcn (c : Region T) (next : List (Region T)) : MergeFcn → Outcome T
  | .merge_conflicts => Smerge.merge_conflicts f c next
  | .merge_same_changes => Smerge.merge_same_changes f c next
  | .merge_only_one => Smerge.merge_only_one f c next
  | .merge_content => Smerge.merge_content f diff_items c next
  | .merge_common_header => Smerge.merge_common_header f c next
  | .merge_added_oneside => Smerge.merge_added_oneside f c next
  | .merge_common_footer => Smerge.merge_common_footer f c next
  | .merge_common_deletes => Smerge.merge_common_deletes f c next
  | .merge_with_following_gca => Smerge.merge_with_following_gca f c next

variable (enable : MergeFcn → Bool)

/-- One run over the table; the flag is `changed`. -/
def tryFcns : List MergeFcn → Bool → Region T → List (Region T) →
    Except Stop (Bool × Region T × List (Region T))
  | [], changed, c, next => .ok (changed, c, next)
  | fcn :: rest, changed, c, next =>
    if enable fcn then
      (fcn.fcn f diff_items c next).bind (fun did =>
        match did with
        | none => tryFcns rest changed c next
        | some (c', next') =>
          let c' := { c' with algos := c'.algos ++ [fcn] }
          if c'.merged.isSome then .ok (true, c', next') else tryFcns rest true c' next')
    else tryFcns rest changed c next

def resolveLoop : Nat → Region T → List (Region T) → Except Stop (Region T × List (Region T))
  | 0, _, _ => .error .fuel
  | fuel + 1, c, next =>
    (tryFcns f diff_items enable mergefcns false c next).bind (fun did =>
      if did.1 ∧ did.2.1.merged.isNone then resolveLoop fuel did.2.1 did.2.2 else .ok did.2)

/-- The region as it is printed, merged or as a conflict. -/
def resolve_conflict (curr : Region T) (next : List (Region T)) :
    Except Stop (Region T × List (Region T)) :=
  resolveLoop f diff_items enable (2 * next.length + f.size + 3) curr next

/-! ### `do_weave_merge` -/

/-- A common line with its place on every side, or a region. -/
inductive Printed (T : Type) where
  | common (mk : Marks)
  | region (c : Region T)

/-- The common lines from `mk` on; the flag says that the end of the range was
reached. -/
def printCommon (start end_ : Nat) : Nat → Marks → Except Stop (List (Printed T) × Bool)
  | 0, _ => .ok ([], false)
  | len + 1, mk =>
    let seq := f.seqAt .gca (mk .gca)
    if seq = f.seqAt .left (mk .left) ∧ seq = f.seqAt .right (mk .right) then
      if seq ≤ start then printCommon start end_ len (fun side => mk side + 1)
      else if end_ ≤ seq then .ok ([], true)
      else
        (printCommon start end_ len (fun side => mk side + 1)).map (fun later =>
          (.common mk :: later.1, later.2))
    else .error .assertion

/-- Is every side as many lines away? -/
def sameDistance (mk upto : Marks) : Bool :=
  Side.all.all (fun side => (upto .gca : Int) - mk .gca == (upto side : Int) - mk side)

def weaveLoop (start end_ : Nat) : Nat → Marks → List (Region T) → Except Stop (List (Printed T))
  | 0, _, _ => .error .fuel
  | _ + 1, mk, [] =>
    if sameDistance mk f.n then
      (printCommon f start end_ (f.n .gca - mk .gca) mk).map (·.1)
    else .error .assertion
  | fuel + 1, mk, curr :: next =>
    if sameDistance mk curr.start then
      (printCommon f start end_ (curr.start .gca - mk .gca) mk).bind (fun common =>
        if common.2 then .ok common.1
        else if start ≤ curr.start_seq then
          (resolve_conflict f diff_items enable curr next).bind (fun r =>
            (weaveLoop start end_ fuel r.1.end_ r.2).map
              (fun later => common.1 ++ .region r.1 :: later))
        else
          (weaveLoop start end_ fuel curr.end_ next).map (common.1 ++ ·))
    else .error .assertion

/-- `start` and `end_` are the range asked for, zero and `~0` by default. -/
def do_weave_merge (fuel start end_ : Nat) : Except Stop (List (Printed T)) :=
  (find_conflicts f).bind
    (fun clist => weaveLoop f diff_items enable start end_ fuel (fun _ => 0) clist)

end Merge

end BitKeeper.Smerge
