import BitKeeper.Smerge.Steps

/-!
`resolve_conflict` always comes to an end. What is left at the head has lines, unless a region with
lines in the GCA alone was split by `merge_common_deletes`.
-/

namespace BitKeeper.Smerge

open List Option

variable {T : Type} {f : Files T} {upto mk : Marks} {c c' : Region T} {next next' : List (Region T)}
  {fcn : MergeFcn}

def NonEmpty (c : Region T) : Prop := ∃ side, c.start side < c.end_ side

theorem Live.nonEmpty (live : Live c) : NonEmpty c := by
  rcases live with left | right
  · exact ⟨.left,Nat.lt_of_sub_pos left⟩
  · exact ⟨.right,Nat.lt_of_sub_pos right⟩

theorem splitHead_live {idx : Marks} (lines : 0 < idx .left ∨ 0 < idx .right) :
    Live (splitHead f c idx) := by
  unfold Live
  rwa [splitHead_len,splitHead_len]

theorem Move.live (move : Move f fcn c next c' next') (listed : Listed f upto mk c next)
    (live : Live c) :
    Live c' := by
  cases move with
  | merged _ lines origin => exact live
  | joined tmp rest whole =>
    have left := listed.cover.2.2.1.le .left
    have right := listed.cover.2.2.1.le .right
    have leftTmp := listed.cover.2.2.2.1 .left
    have rightTmp := listed.cover.2.2.2.1 .right
    unfold Live Region.len at live ⊢
    dsimp only
    omega
  | split _ idx at_ =>
    rcases at_.leaves with lines | ⟨_,dead,_⟩
    · exact splitHead_live lines
    · exact absurd live dead
  | extended _ j following some_ below sided =>
    unfold Live Region.len at live ⊢
    dsimp only
    omega

theorem Move.nonEmpty (move : Move f fcn c next c' next') (listed : Listed f upto mk c next)
    (other : fcn ≠ .merge_common_deletes) (lines : NonEmpty c) : NonEmpty c' := by
  obtain ⟨side,less⟩ := lines
  cases move with
  | merged _ lines origin => exact ⟨side,less⟩
  | joined tmp rest whole =>
    refine ⟨side,lt_of_lt_of_le less ?_⟩
    exact Nat.le_trans (listed.cover.2.2.1.le side) (listed.cover.2.2.2.1 side)
  | split _ idx at_ =>
    rcases at_.leaves with lines | ⟨deletes,_⟩
    · exact (splitHead_live lines).nonEmpty
    · exact absurd deletes other
  | extended _ j following some_ below sided => exact ⟨side,Nat.lt_add_right j less⟩

theorem Listed.algos (listed : Listed f upto mk c next) (algos : List MergeFcn) :
    Listed f upto mk { c with algos := algos } next := by
  refine ⟨listed.cover,?_,?_,listed.adjacent,listed.waiting⟩
  · intro r member
    rcases mem_cons.mp member with rfl | later
    · exact listed.twin c (by simp)
    · exact listed.twin r (mem_cons_of_mem c later)
  · intro r member
    rcases mem_cons.mp member with rfl | later
    · exact listed.end_seq c (by simp)
    · exact listed.end_seq r (mem_cons_of_mem c later)

section Runs
variable [DecidableEq T] (diff_items : List T → List T → List Libdiff.Hunk) (enable : MergeFcn → Bool)

def Kept (f : Files T) (upto mk : Marks) (enable : MergeFcn → Bool) (fcns : List MergeFcn)
    (P : Region T → List (Region T) → Prop) : Prop :=
  ∀ fcn ∈ fcns, enable fcn = true → ∀ c next c' next', Listed f upto mk c next → c.merged = none →
    Move f fcn c next c' next' → P c next → P { c' with algos := c'.algos ++ [fcn] } next'

structure Advanced (f : Files T) (changed : Bool) (c : Region T) (next : List (Region T))
    (changed' : Bool) (c' : Region T) (next' : List (Region T)) : Prop where
  start : c'.start = c.start
  progress : (changed' = changed ∧ c' = c ∧ next' = next) ∨
    (changed' = true ∧ (c'.merged = none → weight f c' next' < weight f c next))

variable {P : Region T → List (Region T) → Prop} {enable}

theorem tryFcns_spec (fits : enable .merge_with_following_gca = true → upto = f.n)
    (fcns : List MergeFcn) (kept : Kept f upto mk enable fcns P) (changed : Bool)
    (listed : Listed f upto mk c next) (unmerged : c.merged = none) (holds : P c next) :
    ∃ changed' c' next', tryFcns f diff_items enable fcns changed c next = .ok (changed', c', next') ∧
      Listed f upto mk c' next' ∧ P c' next' ∧ Advanced f changed c next changed' c' next' := by
  induction fcns generalizing changed c next with
  | nil => exact ⟨changed,c,next,rfl,listed,holds,rfl,.inl ⟨rfl,rfl,rfl⟩⟩
  | cons fcn rest ih =>
    have keptRest : Kept f upto mk enable rest P :=
      fun fcn member => kept fcn (mem_cons_of_mem _ member)
    rw [tryFcns]
    split
    · rename_i enabled
      obtain ⟨did,ran,moves⟩ := fcn_move diff_items fcn listed.placed listed.end_seq
      rw [ran,Except.bind]
      cases did with
      | none => exact ih keptRest changed listed unmerged holds
      | some after =>
        obtain ⟨c₁,next₁⟩ := after
        have move := moves c₁ next₁ rfl
        have listed₁ := (move.listed listed (fun is => fits (is ▸ enabled))).algos (c₁.algos ++ [fcn])
        have holds₁ := kept fcn (by simp) enabled c next c₁ next₁ listed unmerged move holds
        dsimp only
        split
        next merged =>
          refine ⟨true,_,next₁,rfl,listed₁,holds₁,move.start,.inr ⟨rfl,?_⟩⟩
          intro none
          rw [none] at merged
          cases merged
        next merged =>
          have unmerged₁ : c₁.merged = none := not_isSome_iff_eq_none.mp merged
          have lighter : weight f c₁ next₁ < weight f c next := move.weight_lt listed unmerged₁
          obtain ⟨changed',c',next',result,listed',holds',advanced⟩ :=
            ih keptRest true listed₁ unmerged₁ holds₁
          refine ⟨changed',c',next',result,listed',holds',advanced.start.trans move.start,.inr ?_⟩
          rcases advanced.progress with ⟨flag,rfl,rfl⟩ | ⟨flag,less⟩
          · exact ⟨flag,fun _ => lighter⟩
          · exact ⟨flag,fun none => Nat.lt_trans (less none) lighter⟩
    · exact ih keptRest changed listed unmerged holds

theorem tryFcns_append (xs ys : List MergeFcn) (changed : Bool) (unmerged : c.merged = none) :
    tryFcns f diff_items enable (xs ++ ys) changed c next =
      (tryFcns f diff_items enable xs changed c next).bind (fun did =>
        if did.2.1.merged.isSome then .ok did else tryFcns f diff_items enable ys did.1 did.2.1
          did.2.2) := by
  induction xs generalizing changed c next with
  | nil =>
    change _ = (if c.merged.isSome then _ else _)
    rw [unmerged]
    rfl
  | cons fcn rest ih =>
    rw [cons_append,tryFcns,tryFcns]
    split
    · cases ran : fcn.fcn f diff_items c next with
      | error stop => rfl
      | ok did =>
        cases did with
        | none => exact ih changed unmerged
        | some after =>
          obtain ⟨c₁,next₁⟩ := after
          dsimp only [Except.bind]
          by_cases merged : c₁.merged.isSome
          · rw [if_pos merged,if_pos merged]
            change _ = (if c₁.merged.isSome then _ else _)
            rw [if_pos merged]
          · rw [if_neg merged,if_neg merged]
            exact ih true (not_isSome_iff_eq_none.mp merged)
    · exact ih changed unmerged

def RunKeeps (diff_items : List T → List T → List Libdiff.Hunk) (f : Files T) (upto mk : Marks)
    (enable : MergeFcn → Bool) (P : Region T → List (Region T) → Prop) : Prop :=
  ∀ c next, Listed f upto mk c next → c.merged = none → P c next →
    ∃ changed' c' next', tryFcns f diff_items enable mergefcns false c next =
      .ok (changed', c', next') ∧
      Listed f upto mk c' next' ∧ P c' next' ∧ Advanced f false c next changed' c' next'

theorem resolveLoop_spec (keeps : RunKeeps diff_items f upto mk enable P) (fuel : Nat)
    (listed : Listed f upto mk c next) (unmerged : c.merged = none) (holds : P c next)
    (enough : weight f c next < fuel) :
    ∃ c' next', resolveLoop f diff_items enable fuel c next = .ok (c', next') ∧
      Listed f upto mk c' next' ∧
      c'.start = c.start ∧ P c' next' := by
  induction fuel generalizing c next with
  | zero => exact absurd enough (Nat.not_lt_zero _)
  | succ fuel ih =>
    obtain ⟨changed,c₁,next₁,ran,listed₁,holds₁,advanced⟩ := keeps c next listed unmerged holds
    rw [resolveLoop,ran,Except.bind]
    dsimp only
    split
    next again =>
      have unmerged₁ : c₁.merged = none := isNone_iff_eq_none.mp again.2
      have lighter : weight f c₁ next₁ < weight f c next := by
        rcases advanced.progress with ⟨flag,_,_⟩ | ⟨_,less⟩
        · rw [again.1] at flag
          cases flag
        · exact less unmerged₁
      obtain ⟨c',next',result,listed',start,holds'⟩ := ih listed₁ unmerged₁ holds₁ (by omega)
      exact ⟨c',next',result,listed',start.trans advanced.start,holds'⟩
    · exact ⟨c₁,next₁,rfl,listed₁,advanced.start,holds₁⟩

theorem resolve_conflict_spec (keeps : RunKeeps diff_items f upto mk enable P)
    (listed : Listed f upto mk c next) (waiting : Waiting f c) (holds : P c next) :
    ∃ c' next', resolve_conflict f diff_items enable c next = .ok (c', next') ∧
      Listed f upto mk c' next' ∧ c'.start = c.start ∧ P c' next' := by
  apply resolveLoop_spec diff_items keeps _ listed waiting.merged holds
  unfold weight
  rw [if_neg (by simp [waiting.split])]
  split <;> omega

omit [DecidableEq T] in
theorem kept_live (fcns : List MergeFcn) : Kept f upto mk enable fcns (fun c _ => Live c) :=
  fun _ _ _ _ _ _ _ listed _ move live => move.live listed live

omit [DecidableEq T] in
theorem kept_nonEmpty (fcns : List MergeFcn)
    (none : ∀ fcn ∈ fcns, enable fcn = true → fcn ≠ .merge_common_deletes) :
    Kept f upto mk enable fcns (fun c _ => NonEmpty c) :=
  fun fcn member enabled _ _ _ _ listed _ move lines =>
    move.nonEmpty listed (none fcn member enabled) lines

/-- Where the text of a merged region comes from, unless `merge_content` put it together. -/
def Origin (f : Files T) (c : Region T) : Prop :=
  ∀ lines, c.merged = some lines →
    .merge_content ∈ c.algos ∨ lines = c.lines f .left ∨ lines = c.lines f .right

omit [DecidableEq T] in
theorem kept_origin (fcns : List MergeFcn) : Kept f upto mk enable fcns (fun c _ => Origin f c) := by
  intro fcn _ _ c next c' next' _ unmerged move _ lines merged
  cases move with
  | merged _ taken origin =>
    cases merged
    rcases origin with rfl | side
    · exact .inl (mem_append_right _ mem_cons_self)
    · exact .inr side
  | joined | split | extended =>
    change c.merged = _ at merged
    rw [unmerged] at merged
    cases merged

/-- After a join: the region has lines, or fewer than `n` regions follow, of which a split may add
one. -/
def Joined (n : Nat) (c : Region T) (next : List (Region T)) : Prop :=
  Live c ∨ (c.split = false ∧ next.length < n) ∨
    (c.split = true ∧ (∀ side, c.len side = 0) ∧ next.length ≤ n)

omit [DecidableEq T] in
theorem kept_joined (n : Nat) (fcns : List MergeFcn) : Kept f upto mk enable fcns (Joined n) := by
  intro fcn _ _ c next c' next' listed _ move holds
  rcases holds with live | ⟨whole,short⟩ | ⟨split,spent,short⟩
  · exact .inl (move.live listed live)
  · cases move with
    | merged | extended => exact .inr (.inl ⟨whole,short⟩)
    | joined tmp rest _ => exact .inr (.inl ⟨whole,Nat.lt_of_succ_lt short⟩)
    | split _ idx at_ =>
      rcases at_.leaves with lines | ⟨_,_,zero⟩
      · exact .inl (splitHead_live (f := f) lines)
      · exact .inr (.inr ⟨rfl,fun side => (splitHead_len (f := f) idx side).trans (zero side),short⟩)
  · cases move with
    | merged => exact .inr (.inr ⟨split,spent,short⟩)
    | joined tmp rest whole =>
      rw [split] at whole
      cases whole
    | split _ idx at_ =>
      obtain ⟨side,less⟩ := at_.shrinks
      rw [spent side] at less
      cases less
    | extended _ j following some_ below oneSided =>
      rw [spent,spent] at oneSided
      simp at oneSided

theorem merge_conflicts_ok {did : Region T × List (Region T)}
    (joined : merge_conflicts f c next = .ok (some did)) :
    ∃ tmp, next = tmp :: did.2 ∧ did.1 = { c with end_ := tmp.end_, end_seq := tmp.end_seq } ∧
      c.split = false := by
  cases next with
  | nil => cases joined
  | cons tmp rest =>
    unfold merge_conflicts at joined
    dsimp only at joined
    split at joined
    · cases joined
    rename_i whole
    split at joined
    · split at joined
      · cases joined
      · cases joined
        exact ⟨tmp,rfl,rfl,Bool.eq_false_iff.mpr whole⟩
    · cases joined

private theorem live_of_different (different : samedata f c .left .right = false) : Live c := by
  by_contra dead
  unfold Live at dead
  have left : c.texts f .left = [] := by
    have short := texts_length (f := f) c .left
    exact eq_nil_of_length_eq_zero (by omega)
  have right : c.texts f .right = [] := by
    have short := texts_length (f := f) c .right
    exact eq_nil_of_length_eq_zero (by omega)
  unfold samedata at different
  rw [left,right] at different
  simp at different

private theorem tryFcns_same_changes (enabled : enable .merge_same_changes = true) (changed : Bool)
    (next : List (Region T)) (lines : NonEmpty c) :
    (∃ c' next', tryFcns f diff_items enable [.merge_same_changes] changed c next =
      .ok (true, c', next') ∧
        c'.merged.isSome = true ∧ NonEmpty c') ∨
      (tryFcns f diff_items enable [.merge_same_changes] changed c next = .ok (changed, c, next) ∧
      Live c) := by
  rw [tryFcns,if_pos enabled]
  change (∃ c' next', (merge_same_changes f c next).bind _ = _ ∧ _) ∨
    ((merge_same_changes f c next).bind _ = _ ∧ _)
  unfold merge_same_changes
  cases same : samedata f c .left .right with
  | true =>
    exact .inl ⟨_,next,rfl,rfl,lines⟩
  | false =>
    exact .inr ⟨rfl,live_of_different same⟩

section Fits
variable (fits : enable .merge_with_following_gca = true → upto = f.n)
include fits

theorem runKeeps (kept : Kept f upto mk enable mergefcns P) :
    RunKeeps diff_items f upto mk enable P :=
  fun _ _ listed unmerged holds =>
    tryFcns_spec diff_items fits mergefcns kept false listed unmerged holds

theorem runKeeps_true : RunKeeps diff_items f upto mk enable (fun _ _ => True) :=
  runKeeps diff_items fits (fun _ _ _ _ _ _ _ _ _ _ _ => trivial)

theorem runKeeps_joined {did : Region T × List (Region T)} (enabled : enable .merge_conflicts = true)
    (joins : merge_conflicts f c next = .ok (some did)) :
    RunKeeps diff_items f upto mk enable
      (fun c' next' => (c' = c ∧ next' = next) ∨ Joined next.length c' next') := by
  intro c' next' listed unmerged holds
  rcases holds with ⟨rfl,rfl⟩ | holds
  · obtain ⟨changed₁,c₁,next₁,ran,listed₁,_,advanced⟩ := tryFcns_spec diff_items fits mergefcns
      (P := fun _ _ => True) (fun _ _ _ _ _ _ _ _ _ _ _ => trivial) false listed unmerged trivial
    refine ⟨changed₁,c₁,next₁,ran,listed₁,.inr ?_,advanced⟩
    obtain ⟨tmp,list,made,whole⟩ := merge_conflicts_ok joins
    obtain ⟨_,called,moves⟩ := fcn_move diff_items .merge_conflicts listed.placed listed.end_seq
    rw [MergeFcn.fcn,joins] at called
    cases called
    have listed₂ := ((moves _ _ rfl).listed listed MergeFcn.noConfusion).algos
      (did.1.algos ++ [.merge_conflicts])
    have open_ : did.1.merged = none := by
      rwa [made]
    have table : mergefcns = .merge_conflicts :: mergefcns.drop 1 := rfl
    rw [table,tryFcns,if_pos enabled,MergeFcn.fcn,joins,Except.bind] at ran
    dsimp only at ran
    rw [if_neg (by rw [open_]; exact Bool.false_ne_true)] at ran
    have start : Joined next'.length { did.1 with algos := did.1.algos ++ [.merge_conflicts] }
        did.2 := by
      refine .inr (.inl ⟨?_,?_⟩)
      · rw [made]
        exact whole
      · rw [list]
        exact Nat.lt_succ_self _
    obtain ⟨_,_,_,ran',_,holds,_⟩ := tryFcns_spec diff_items fits (mergefcns.drop 1)
      (kept_joined next'.length _) true listed₂
      open_ start
    rw [ran] at ran'
    cases ran'
    exact holds
  · obtain ⟨changed₁,c₁,next₁,ran,listed₁,holds₁,advanced⟩ := tryFcns_spec diff_items fits mergefcns
      (kept_joined next.length _) false listed unmerged holds
    exact ⟨changed₁,c₁,next₁,ran,listed₁,.inr holds₁,advanced⟩

theorem runKeeps_nonEmpty
    (good : enable .merge_same_changes = true ∨ enable .merge_common_deletes = false) :
    RunKeeps diff_items f upto mk enable (fun c _ => NonEmpty c) := by
  rcases good with same | deletes
  · intro c next listed unmerged lines
    have keptAll : Kept f upto mk enable mergefcns (fun _ _ => True) :=
      fun _ _ _ _ _ _ _ _ _ _ _ => trivial
    obtain ⟨changed',c',next',ran,listed',_,advanced⟩ :=
      tryFcns_spec diff_items fits mergefcns keptAll false listed unmerged trivial
    refine ⟨changed',c',next',ran,listed',?_,advanced⟩
    have table : mergefcns = [.merge_conflicts] ++ ([.merge_same_changes] ++ mergefcns.drop 2) := rfl
    rw [table,tryFcns_append diff_items _ _ _ unmerged] at ran
    obtain ⟨changed₁,c₁,next₁,ran₁,listed₁,lines₁,_⟩ :=
      tryFcns_spec diff_items fits [.merge_conflicts] (kept_nonEmpty [.merge_conflicts] (by simp))
        false listed unmerged lines
    rw [ran₁,Except.bind] at ran
    split at ran
    · cases ran
      exact lines₁
    rename_i merged₁
    rw [tryFcns_append diff_items _ _ _ (not_isSome_iff_eq_none.mp merged₁)] at ran
    rcases tryFcns_same_changes (f := f) diff_items same changed₁ next₁ lines₁ with
      ⟨c₂,next₂,ran₂,merged₂,lines₂⟩ | ⟨ran₂,live⟩
    · rw [ran₂,Except.bind] at ran
      rw [if_pos merged₂] at ran
      cases ran
      exact lines₂
    · rw [ran₂,Except.bind] at ran
      rw [if_neg merged₁] at ran
      obtain ⟨_,c₃,next₃,ran₃,_,live₃,_⟩ := tryFcns_spec diff_items fits (mergefcns.drop 2)
        (kept_live _) changed₁ listed₁ (not_isSome_iff_eq_none.mp merged₁) live
      rw [ran₃] at ran
      cases ran
      exact live₃.nonEmpty
  · apply runKeeps diff_items fits
    apply kept_nonEmpty
    intro fcn _ enabled is
    rw [is,deletes] at enabled
    cases enabled

end Fits

end Runs

end BitKeeper.Smerge
