import BitKeeper.Smerge.Diff3

/-!
`smerge_main` after the four files are read. The laws hold for sides that are the same lines; a line
that was deleted and added again is another line, even with the same text.
-/

namespace BitKeeper.Smerge

open List

open Libdiff (Hunk)

section Files
variable {T : Type}

def Files.leftTwice (f : Files T) : Files T where
  body := fun side => f.body (if side = .right then .left else side)
  increasing _ := f.increasing _
  numbered _ := f.numbered _
  sameText _ _ := f.sameText _ _
  sameGca := f.sameGca

def smerge_files [DecidableEq T] (f : Files T) : Files T :=
  if (f.body .left).map Line.text = (f.body .right).map Line.text then f.leftTwice else f

variable [DecidableEq T] (f : Files T)

theorem smerge_files_body {side : Side} (other : side ≠ .right) :
    (smerge_files f).body side = f.body side := by
  unfold smerge_files
  split
  · exact congrArg f.body (if_neg other)
  · rfl

theorem smerge_files_text (side : Side) :
    ((smerge_files f).body side).map Line.text = (f.body side).map Line.text := by
  by_cases right : side = .right
  · subst right
    unfold smerge_files
    split
    next same => exact same
    next => rfl
  · rw [smerge_files_body f right]

theorem smerge_files_same (same : (f.body .left).map Line.text = (f.body .right).map Line.text) :
    (smerge_files f).body .left = (smerge_files f).body .right := by
  unfold smerge_files
  rw [if_pos same]
  rfl

theorem smerge_files_right (same : f.body .right = f.body .gca) :
    (smerge_files f).body .right = (smerge_files f).body .gca ∨
      (smerge_files f).body .left = (smerge_files f).body .right := by
  by_cases texts : (f.body .left).map Line.text = (f.body .right).map Line.text
  · exact .inr (smerge_files_same f texts)
  · left
    unfold smerge_files
    rwa [if_neg texts]

end Files

section Laws
variable {T : Type} [DecidableEq T] (dhash : Line T → Nat)
  (lineCost : List (Line T) → List (Line T) → Libdiff.Side → Nat → Libdiff.Pos → Nat)
  (diff_items : List T → List T → List Hunk) (vf vr : Int → Int)

/-- `bk ndiff` on the numbered lines of two files; equal files are not compared. -/
def ndiff (gca side : List (Line T)) : Except Libdiff.Stop (List Hunk) :=
  if gca = side then .ok []
  else Libdiff.diff_items { dcmp := fun a b => decide (a = b), dhash := dhash } 1 1 false
    (some (lineCost gca side)) gca side
    vf vr

theorem ndiff_runs {gca side : List (Line T)}
    (noWrap : ndiff dhash lineCost vf vr gca side ≠ .error .wrap) :
    ∃ cmds, ndiff dhash lineCost vf vr gca side = .ok cmds ∧ Libdiff.Script Eq 1 1 gca side cmds := by
  unfold ndiff at noWrap ⊢
  by_cases same : gca = side
  · rw [if_pos same]
    refine ⟨[],rfl,.same ?_⟩
    rw [same,forall₂_eq_eq_eq]
  rw [if_neg same] at noWrap ⊢
  have equality : (fun a b : Line T => decide (a = b) = true) = Eq := by
    funext a b
    exact propext decide_eq_true_iff
  have equal : Equivalence (fun a b : Line T => decide (a = b) = true) := by
    rw [equality]
    exact eq_equivalence
  obtain ⟨cmds,ran,script⟩ :=
    Libdiff.diff_items_runs equal 1 1 false (some (lineCost gca side)) gca side vf vr noWrap
  rw [equality] at script
  exact ⟨cmds,ran,script⟩

def WeavePrints (f : Files T) (text : List T) : Prop :=
  ∃ fuel out, do_weave_merge f diff_items (fun _ => true) fuel 0 eof = .ok out ∧
    conflicts out = false ∧
    out.flatMap (Printed.text f) = text

def DiffPrints (f : Files T) (text : List T) : Prop :=
  (∀ side, ndiff dhash lineCost vf vr (f.body .gca) (f.body side) ≠ .error .wrap) →
    ∃ ldiff rdiff out, ndiff dhash lineCost vf vr (f.body .gca) (f.body .left) = .ok ldiff ∧
      ndiff dhash lineCost vf vr (f.body .gcar) (f.body .right) = .ok rdiff ∧
      do_diff_merge f diff_items (fun _ => true) ldiff rdiff = .ok out ∧ diffConflicts out = false ∧
      out.flatMap (DiffPrinted.text f) = text

/-- A conflict shows the lines of LEFT, a merged region those of LEFT or of RIGHT, unless
`merge_content` put it together. -/
def Region.Shown (f : Files T) (c : Region T) : Prop :=
  c.output f = c.texts f .left ∨
    c.merged.isSome = true ∧ (c.output f = c.texts f .right ∨ .merge_content ∈ c.algos)

omit [DecidableEq T] in
theorem Origin.shown {f : Files T} {c : Region T} (origin : Origin f c) : c.Shown f := by
  unfold Region.Shown Region.output
  cases merged : c.merged with
  | none => exact .inl rfl
  | some lines =>
    rcases origin lines merged with content | rfl | rfl
    · exact .inr ⟨rfl,.inr content⟩
    · exact .inl rfl
    · exact .inr ⟨rfl,.inl rfl⟩

/-- Every line of every side is at one place of the output, in order. -/
def WeaveCovers (f : Files T) : Prop :=
  ∃ fuel out, do_weave_merge f diff_items (fun _ => true) fuel 0 eof = .ok out ∧
    (∀ p ∈ out, p.Agrees f) ∧
    (∀ side, out.flatMap (Printed.places side) = range (f.n side)) ∧ ∀ c, .region c ∈ out → c.Shown f

def withoutFollowing (fcn : MergeFcn) : Bool := fcn ≠ .merge_with_following_gca

/-- Does `merge_with_following_gca` leave the region alone? -/
def Unextended (f : Files T) (c : Region T) : Prop :=
  resolveAll f diff_items (fun _ => true) (f.size + 1) c [] =
    resolveAll f diff_items withoutFollowing (f.size + 1) c []

/-- The output is common lines and regions that make up every side, in order, and a region that is not
extended is printed as its parts. -/
def DiffCovers (f : Files T) : Prop :=
  (∀ side, ndiff dhash lineCost vf vr (f.body .gca) (f.body side) ≠ .error .wrap) →
    ∃ ldiff rdiff pieces last, ndiff dhash lineCost vf vr (f.body .gca) (f.body .left) = .ok ldiff ∧
      ndiff dhash lineCost vf vr (f.body .gcar) (f.body .right) = .ok rdiff ∧
      do_diff_merge f diff_items (fun _ => true) ldiff rdiff =
        printPieces f diff_items (fun _ => true) last pieces ∧
      (∀ side, pieces.flatMap (fun p => p.common ++ p.region.lines f side) ++ last = f.body side) ∧
      (∀ p ∈ pieces, Unextended diff_items f p.region →
        ∃ regions, resolveAll f diff_items (fun _ => true) (f.size + 1) p.region [] = .ok regions ∧
          (∀ side, regions.flatMap (fun r => r.lines f side) = p.region.lines f side) ∧
            ∀ r ∈ regions, r.Shown f) ∧
      ((∀ p ∈ pieces, Unextended diff_items f p.region) →
        ∃ out, do_diff_merge f diff_items (fun _ => true) ldiff rdiff = .ok out)

private theorem weave_covers (f : Files T) : WeaveCovers diff_items f := by
  have ends (mk : Marks) (c : Region T) (next : List (Region T))
    (_ : Turns f diff_items (fun _ => true) 0 eof mk (c :: next))
      (_ : Passes f 0 eof mk c) (_ : 0 ≤ c.start_seq) : ¬ Endless f (fun _ => true) c next :=
    fun endless => by cases endless.same
  obtain ⟨fuel,out,ran,complete⟩ := weave_complete ends
  obtain ⟨agrees,places⟩ := complete.merges
  exact ⟨fuel,out,ran,agrees,places rfl rfl,fun c member => (complete.regions c member).shown⟩

theorem diff_pieces (f : Files T)
    (noWrap : ∀ side, ndiff dhash lineCost vf vr (f.body .gca) (f.body side) ≠ .error .wrap) :
    ∃ ldiff rdiff pieces last, ndiff dhash lineCost vf vr (f.body .gca) (f.body .left) = .ok ldiff ∧
      ndiff dhash lineCost vf vr (f.body .gca) (f.body .right) = .ok rdiff ∧
      (∀ enable, do_diff_merge f diff_items enable ldiff rdiff = printPieces f diff_items enable
      last pieces) ∧
      (∀ side, pieces.flatMap (fun p => p.common ++ p.region.lines f side) ++ last = f.body side) ∧
      ∀ p ∈ pieces, FoundBy f (diffwalk_new ldiff) (diffwalk_new rdiff) p.region := by
  obtain ⟨ldiff,ran,script⟩ := ndiff_runs dhash lineCost vf vr (noWrap .left)
  obtain ⟨rdiff,ran',script'⟩ := ndiff_runs dhash lineCost vf vr (noWrap .right)
  obtain ⟨pieces,last,merged,cover,found⟩ := do_diff_merge_pieces f script script'
  exact ⟨ldiff,rdiff,pieces,last,ran,ran',merged diff_items,cover,found⟩

private theorem diff_covers (f : Files T) : DiffCovers dhash lineCost diff_items vf vr f := by
  intro noWrap
  obtain ⟨ldiff,rdiff,pieces,last,left,right,ran,cover,found⟩ :=
    diff_pieces dhash lineCost diff_items vf vr f noWrap
  have parts : ∀ p ∈ pieces, Unextended diff_items f p.region →
      ∃ regions, resolveAll f diff_items (fun _ => true) (f.size + 1) p.region [] = .ok regions ∧
        (∀ side, regions.flatMap (fun r => r.lines f side) = p.region.lines f side) ∧ ∀ r ∈ regions,
          r.Shown f := by
    intro p member unextended
    have known := found p member
    have short : remaining f p.region.start ≤ f.size := by
      unfold remaining Files.size
      omega
    have off : withoutFollowing .merge_with_following_gca = false := rfl
    obtain ⟨regions,resolved,origins,lines⟩ := resolveAll_spec diff_items off rfl (f.size + 1)
      known.listed known.waiting rfl
      (Nat.lt_succ_of_le short)
    exact ⟨regions,unextended.trans resolved,lines,fun r member => (origins r member).shown⟩
  refine ⟨ldiff,rdiff,pieces,last,left,by rw [f.sameGca]; exact right,ran _,cover,parts,?_⟩
  intro all
  rw [ran]
  apply printPieces_ok
  intro p member
  obtain ⟨regions,resolved,_⟩ := parts p member (all p member)
  exact ⟨regions,resolved⟩

variable {f : Files T} {side : Side}

theorem diff_prints
    (auto : ∀ ldiff rdiff c, ndiff dhash lineCost vf vr (f.body .gca) (f.body .left) = .ok ldiff →
      ndiff dhash lineCost vf vr (f.body .gca) (f.body .right) = .ok rdiff →
      FoundBy f (diffwalk_new ldiff) (diffwalk_new rdiff) c → Auto f side c) :
    DiffPrints dhash lineCost diff_items vf vr f ((f.body side).map Line.text) := by
  intro noWrap
  obtain ⟨ldiff,rdiff,pieces,last,left,right,ran,cover,found⟩ :=
    diff_pieces dhash lineCost diff_items vf vr f noWrap
  obtain ⟨out,merged,prints⟩ := printPieces_auto diff_items last pieces (fun p member =>
    ⟨(found p member).waiting.merged,auto ldiff rdiff p.region left right (found p member)⟩)
  rw [cover] at prints
  exact ⟨ldiff,rdiff,out,left,by rw [f.sameGca]; exact right,(ran _).trans merged,prints.clean,
    prints.text⟩

theorem ndiff_same {gca side : List (Line T)} {cmds : List Hunk} (same : side = gca)
    (ran : ndiff dhash lineCost vf vr gca side = .ok cmds) : cmds = [] := by
  unfold ndiff at ran
  rw [if_pos same.symm] at ran
  cases ran
  rfl

private theorem prints_right (same : f.body .left = f.body .gca) :
    WeavePrints diff_items f ((f.body .right).map Line.text) ∧
      DiffPrints dhash lineCost diff_items vf vr f ((f.body .right).map Line.text) := by
  refine ⟨weave_law same (fun c twin => auto_left (twin.1.texts same).symm) diff_items,?_⟩
  apply diff_prints
  intro ldiff rdiff c left _ found
  exact auto_left ((found.left (ndiff_same dhash lineCost vf vr same left) same).texts same).symm

private theorem prints_left (same : f.body .right = f.body .gca) :
    WeavePrints diff_items f ((f.body .left).map Line.text) ∧
      DiffPrints dhash lineCost diff_items vf vr f ((f.body .left).map Line.text) := by
  have gcar : f.body .gcar = f.body .right := f.sameGca.trans same.symm
  refine ⟨weave_law gcar
    (fun c twins => auto_right (twins.2.texts f.sameGca.symm) (twins.1.texts gcar)) diff_items,?_⟩
  apply diff_prints
  intro ldiff rdiff c _ right found
  have twin := (found.listed.twin c mem_cons_self).texts f.sameGca.symm
  have level := (found.right (ndiff_same dhash lineCost vf vr same right) same).texts same
  exact auto_right twin (twin.symm.trans level.symm)

theorem prints_both (same : f.body .left = f.body .right) :
    WeavePrints diff_items f ((f.body .left).map Line.text) ∧
      DiffPrints dhash lineCost diff_items vf vr f ((f.body .left).map Line.text) := by
  refine ⟨weave_law same (fun c twin => auto_same (twin.1.texts same) rfl) diff_items,?_⟩
  apply diff_prints
  intro ldiff rdiff c left right found
  rw [same,right] at left
  cases left
  exact auto_same ((found.both rfl rfl).texts same) rfl

variable (f) in
/-- The laws of a three-way merge: a side that is the GCA gives the other side, sides of the same text
give it, and every line is printed at its place. -/
theorem smerge_laws :
    (f.body .left = f.body .gca →
      WeavePrints diff_items (smerge_files f) ((f.body .right).map Line.text) ∧
        DiffPrints dhash lineCost diff_items vf vr (smerge_files f) ((f.body .right).map Line.text)) ∧
    (f.body .right = f.body .gca →
      WeavePrints diff_items (smerge_files f) ((f.body .left).map Line.text) ∧
        DiffPrints dhash lineCost diff_items vf vr (smerge_files f) ((f.body .left).map Line.text)) ∧
    ((f.body .left).map Line.text = (f.body .right).map Line.text →
      WeavePrints diff_items (smerge_files f) ((f.body .left).map Line.text) ∧
        DiffPrints dhash lineCost diff_items vf vr (smerge_files f) ((f.body .left).map Line.text)) ∧
    WeaveCovers diff_items (smerge_files f) ∧ DiffCovers dhash lineCost diff_items vf vr
      (smerge_files f) := by
  refine ⟨?_,?_,?_,weave_covers diff_items (smerge_files f),
    diff_covers dhash lineCost diff_items vf vr _⟩
  · intro same
    rw [← smerge_files_text f .right]
    apply prints_right
    rw [smerge_files_body f Side.noConfusion,smerge_files_body f Side.noConfusion,same]
  · intro same
    rw [← smerge_files_text f .left]
    rcases smerge_files_right f same with right | both
    · exact prints_left dhash lineCost diff_items vf vr right
    · exact prints_both dhash lineCost diff_items vf vr both
  · intro same
    rw [← smerge_files_text f .left]
    exact prints_both dhash lineCost diff_items vf vr (smerge_files_same f same)

end Laws

def noCost (_ _ : List (Line Nat)) (_ : Libdiff.Side) (_ : Nat) (_ : Libdiff.Pos) : Nat := 0

theorem smerge_laws_added :
    (∀ side, ndiff Line.seq noCost (fun _ => 0) (fun _ => 0) ((smerge_files addedFiles).body .gca)
      ((smerge_files addedFiles).body side) ≠ .error .wrap) ∧
      WeavePrints numberHunks (smerge_files addedFiles) [1,2,3] ∧
      DiffPrints Line.seq noCost numberHunks (fun _ => 0) (fun _ => 0) (smerge_files addedFiles)
    [1,2,3] :=
  ⟨fun side => by cases side <;> decide +kernel,
    (smerge_laws Line.seq noCost numberHunks (fun _ => 0) (fun _ => 0) addedFiles).1 rfl⟩

def movedFiles : Files Nat := ofSeqs (fun seq => if seq = 4 then 8 else 7) [2,3,5] [1,2,3,4] [1,2,3]
    (by decide)

def lostFiles : Files Nat :=
  ofSeqs (fun seq => if seq = 1 ∨ seq = 4 then 7 else 8) [2,3,4,5] [4] [1,2,3,4,5] (by decide)

/-- Left has the text of the GCA, but there is a conflict; and `merge_content` loses a line of all
three files when it compares texts. -/
theorem smerge_laws_moved :
    ((movedFiles.body .left).map Line.text = (movedFiles.body .gca).map Line.text ∧
      (do_weave_merge (smerge_files movedFiles) numberHunks (fun _ => true) 4 0 eof).toOption.map
      conflicts = some true) ∧
    ((∀ side, { seq := 4, text := 7 } ∈ lostFiles.body side) ∧
      (do_weave_merge (smerge_files lostFiles) numberHunks (fun _ => true) 4 0 eof).toOption.map
        (flatMap (Printed.text lostFiles)) = some []) := by
  refine ⟨⟨by decide,by decide +kernel⟩,?_,by decide +kernel⟩
  intro side
  cases side <;> decide

end BitKeeper.Smerge
