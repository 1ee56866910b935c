import BitKeeper.Smerge.Calls

/-!
The laws of a three-way merge in weave mode, with all merge functions enabled. Two equal sides have
their regions at the same places.
-/

namespace BitKeeper.Smerge

open List Bool

variable {T : Type}

def Region.output (f : Files T) (c : Region T) : List T := match c.merged with
  | some lines => lines.map Line.text
  | none => c.texts f .left

def Printed.text (f : Files T) : Printed T → List T
  | .common mk => (f.textAt .gca (mk .gca)).toList
  | .region c => c.output f

def conflicts (out : List (Printed T)) : Bool := out.any (fun p =>
    match p with
    | .common _ => false
    | .region c => c.merged.isNone)

def MergedTo (f : Files T) (side : Side) (c : Region T) : Prop :=
  ∃ lines, c.merged = some lines ∧ lines.map Line.text = c.texts f side

section
variable {f : Files T} {side : Side}

theorem textAt_of_seq {side' : Side} {i j : Nat} (inside : i < f.n side) (inside' : j < f.n side')
    (same : f.seqAt side i = f.seqAt side' j) : f.textAt side i = f.textAt side' j := by
  have at_ : (f.body side)[i]? = some (f.body side)[i] := getElem?_eq_getElem inside
  have at' : (f.body side')[j]? = some (f.body side')[j] := getElem?_eq_getElem inside'
  unfold Files.seqAt at same
  rw [at_,at'] at same
  unfold Files.textAt
  rw [at_,at']
  exact congrArg some (f.sameText side side' _ (getElem_mem inside) _ (getElem_mem inside') same)

private theorem textAt_range (start len : Nat) :
    (List.range' start len).flatMap (fun i => (f.textAt side i).toList) =
      (((f.body side).drop start).take len).map Line.text := by
  induction len generalizing start with
  | zero =>
    rw [take_zero]
    rfl
  | succ len ih =>
    rw [range'_succ,flatMap_cons,ih]
    unfold Files.textAt
    by_cases inside : start < (f.body side).length
    · rw [drop_eq_getElem_cons inside,getElem?_eq_getElem inside,take_succ_cons,map_cons]
      rfl
    · rw [getElem?_eq_none (by omega),drop_eq_nil_of_le (by omega),drop_eq_nil_of_le (by omega),
        take_nil,take_nil]
      rfl

theorem Printed.text_places {p : Printed T} (agrees : p.Agrees f)
    (merged : ∀ c, p = .region c → MergedTo f side c) :
    p.text f = (p.places side).flatMap (fun i => (f.textAt side i).toList) := by
  cases p with
  | common mk =>
    have here := agrees side
    have gca := agrees .gca
    change (f.textAt .gca (mk .gca)).toList = (f.textAt side (mk side)).toList ++ []
    rw [append_nil,textAt_of_seq here.1 gca.1 here.2]
  | region c =>
    obtain ⟨lines,at_,text⟩ := merged c rfl
    change c.output f = (List.range' (c.start side) (c.len side)).flatMap _
    unfold Region.output
    rwa [at_,textAt_range]

theorem Complete.text {out : List (Printed T)}
    (complete : Complete f (fun _ => 0) (MergedTo f side) 0 eof out) :
    conflicts out = false ∧ out.flatMap (Printed.text f) = (f.body side).map Line.text := by
  constructor
  · unfold conflicts
    rw [any_eq_false]
    intro p member
    cases p with
    | common mk => exact false_ne_true
    | region c =>
      obtain ⟨lines,at_,_⟩ := complete.regions c member
      dsimp only
      rw [at_]
      exact false_ne_true
  · have each : out.flatMap (Printed.text f) =
        out.flatMap (fun p => (p.places side).flatMap (fun i => (f.textAt side i).toList)) := by
      apply flatMap_congr
      intro p member
      apply Printed.text_places (complete.agrees p member)
      intro c is
      rw [is] at member
      exact complete.regions c member
    rw [each,← flatMap_assoc,complete.places rfl rfl side,textAt_range]
    rw [Nat.sub_zero,drop_zero]
    exact congrArg _ (take_length ..)

end

section
variable [DecidableEq T] {f : Files T} {side : Side}
  {diff_items : List T → List T → List Libdiff.Hunk}

def Auto (f : Files T) (side : Side) (c : Region T) : Prop :=
  ∃ lines fcn, lines.map Line.text = c.texts f side ∧
    ∀ (diff_items : List T → List T → List Libdiff.Hunk) changed next,
      tryFcns f diff_items (fun _ => true) [.merge_same_changes,.merge_only_one] changed c next =
        .ok (true, { c with merged := some lines, algos := c.algos ++ [fcn] }, next)

variable {c : Region T} {next : List (Region T)}

def Twins (a b : Side) (c : Region T) : Prop := Twin a b c ∧ Twin .gca .gcar c

variable {a b : Side} (f diff_items) in
theorem tryFcns_conflicts (unmerged : c.merged = none) (twins : ∀ r ∈ c :: next, Twins a b r) :
    (∃ e, tryFcns f diff_items (fun _ => true) [.merge_conflicts] false c next = .error e) ∨
      ∃ changed c' next', tryFcns f diff_items (fun _ => true) [.merge_conflicts] false c next =
          .ok (changed, c', next') ∧ c'.merged = none ∧ Twins a b c' ∧ ∀ r ∈ next', r ∈ next := by
  rw [tryFcns,if_pos rfl]
  generalize called : MergeFcn.fcn f diff_items c next .merge_conflicts = did
  cases did with
  | error e => exact .inl ⟨e,rfl⟩
  | ok did =>
    right
    cases did with
    | none => exact ⟨false,c,next,rfl,unmerged,twins c mem_cons_self,fun _ member => member⟩
    | some did =>
      obtain ⟨tmp,list,made,_⟩ := merge_conflicts_ok called
      have first := twins c mem_cons_self
      have second := twins tmp (by rw [list]; exact mem_cons_of_mem c mem_cons_self)
      have open_ : did.1.merged = none := by
        rwa [made]
      refine ⟨true,{ did.1 with algos := did.1.algos ++ [.merge_conflicts] },did.2,?_,open_,?_,?_⟩
      · rw [Except.bind]
        dsimp only
        rw [if_neg (by rw [open_]; exact false_ne_true)]
        rfl
      · rw [made]
        exact ⟨⟨first.1.1,second.1.2⟩,first.2.1,second.2.2⟩
      · intro r member
        rw [list]
        exact mem_cons_of_mem tmp member

theorem resolve_auto (auto : ∀ c : Region T, Twins a b c → Auto f side c) (unmerged : c.merged = none)
    (twins : ∀ r ∈ c :: next, Twins a b r) {c' : Region T} {next' : List (Region T)}
    (resolved : resolve_conflict f diff_items (fun _ => true) c next = .ok (c', next')) :
    MergedTo f side c' ∧ ∀ r ∈ next', r ∈ next := by
  have table : mergefcns =
    [.merge_conflicts] ++ ([.merge_same_changes,.merge_only_one] ++ mergefcns.drop 3) := rfl
  unfold resolve_conflict at resolved
  rw [resolveLoop,table,tryFcns_append diff_items _ _ _ unmerged] at resolved
  rcases tryFcns_conflicts f diff_items unmerged twins with failed | ran
  · obtain ⟨e,failed⟩ := failed
    rw [failed] at resolved
    cases resolved
  obtain ⟨changed,c₁,next₁,ran,unmerged₁,twin₁,fewer⟩ := ran
  obtain ⟨lines,fcn,text,merged⟩ := auto c₁ twin₁
  rw [ran,Except.bind] at resolved
  rw [if_neg (by rw [unmerged₁]; exact false_ne_true),tryFcns_append diff_items _ _ _ unmerged₁,
    merged,Except.bind] at resolved
  cases resolved
  exact ⟨⟨lines,rfl,text⟩,fewer⟩

theorem weave_law (bodies : f.body a = f.body b) (auto : ∀ c : Region T, Twins a b c → Auto f side c)
    (diff_items : List T → List T → List Libdiff.Hunk) :
    ∃ fuel out, do_weave_merge f diff_items (fun _ => true) fuel 0 eof = .ok out ∧
      conflicts out = false ∧
      out.flatMap (Printed.text f) = (f.body side).map Line.text := by
  have resolves : Resolves diff_items (fun _ => true) f 0 eof (fun _ regions => ∀ r ∈ regions,
    Twins a b r)
      (MergedTo f side) := by
    refine ⟨fun _ c _ twins _ _ r member => twins r (mem_cons_of_mem c member),?_⟩
    intro mk c next listed waiting twins _ _
    have keeps : RunKeeps diff_items f f.n mk (fun _ => true) (fun c _ => NonEmpty c) :=
      runKeeps_nonEmpty diff_items (fun _ => rfl) (.inl rfl)
    obtain ⟨c',next',resolved,listed',start,lines⟩ := resolve_conflict_spec diff_items keeps
      listed waiting
      waiting.nonempty
    obtain ⟨merged,fewer⟩ := resolve_auto auto waiting.merged twins resolved
    refine ⟨c',next',resolved,listed',start,.inl lines,merged,?_⟩
    exact fun r member => twins r (mem_cons_of_mem c (fewer r member))
  obtain ⟨regions,found,queue,new⟩ := find_conflicts_queue f
  obtain ⟨fuel,out,ran,complete⟩ := weaveLoop_spec resolves _ regions queue
    (fun r member => ⟨(new r member).twins a b bodies,(new r member).twins .gca .gcar f.sameGca.symm⟩)
  refine ⟨fuel,out,?_,complete.text⟩
  unfold do_weave_merge
  rwa [found]

omit [DecidableEq T] in
theorem Twin.texts (twin : Twin a b c) (bodies : f.body a = f.body b) : c.texts f a = c.texts f b :=
  by
  unfold Region.texts Region.lines
  rw [twin.1,twin.2,bodies]

theorem auto_same (same : c.texts f .left = c.texts f .right)
    (text : c.texts f .left = c.texts f side) : Auto f side c := by
  refine ⟨c.lines f .left,.merge_same_changes,text,?_⟩
  intro diff_items changed next
  have called : MergeFcn.fcn f diff_items c next .merge_same_changes =
      .ok (some ({ c with merged := some (c.lines f .left) }, next)) := by
    rw [MergeFcn.fcn,merge_same_changes]
    unfold samedata
    rw [if_pos (decide_eq_true same)]
  rw [tryFcns,if_pos rfl,called]
  rfl

theorem auto_only_one {lines : List (Line T)} (different : c.texts f .left ≠ c.texts f .right)
    (text : lines.map Line.text = c.texts f side)
    (one : ∀ next, merge_only_one f c next = .ok (some ({ c with merged := some lines }, next))) :
    Auto f side c := by
  refine ⟨lines,.merge_only_one,text,?_⟩
  intro diff_items changed next
  have called : MergeFcn.fcn f diff_items c next .merge_same_changes = .ok none := by
    rw [MergeFcn.fcn,merge_same_changes]
    unfold samedata
    rw [if_neg (by rw [decide_eq_false different]; exact false_ne_true)]
  have called' : MergeFcn.fcn f diff_items c next .merge_only_one =
      .ok (some ({ c with merged := some lines }, next)) :=
    one next
  rw [tryFcns,if_pos rfl,called,Except.bind]
  rw [tryFcns,if_pos rfl,called']
  rfl

theorem auto_left (left : c.texts f .gca = c.texts f .left) : Auto f .right c := by
  by_cases same : c.texts f .left = c.texts f .right
  · exact auto_same same same
  · apply auto_only_one same rfl
    intro next
    unfold merge_only_one samedata
    rw [if_pos (decide_eq_true left)]

theorem auto_right (twin : c.texts f .gca = c.texts f .gcar)
    (right : c.texts f .gcar = c.texts f .right) : Auto f .left c := by
  by_cases same : c.texts f .left = c.texts f .right
  · exact auto_same same rfl
  · apply auto_only_one same rfl
    intro next
    unfold merge_only_one samedata
    rw [if_neg
      (by rw [decide_eq_false (fun left => same (by rw [← left,twin,right]))]; exact false_ne_true),
      if_pos (decide_eq_true right)]

end

end BitKeeper.Smerge
