import BitKeeper.Smerge.Weave

/-!
Every list of regions that `do_weave_merge` can have is a cover. The merge comes to an end unless it
meets a region that both sides deleted and that neither `merge_conflicts` nor `merge_same_changes`
takes: `merge_common_deletes` splits it into nothing and the same region again.
-/

namespace BitKeeper.Smerge

open List

variable {T : Type} [DecidableEq T]

def textHunks (items : Libdiff.Items T)
    (dcost : List T → List T → Libdiff.Side → Nat → Libdiff.Pos → Nat) (vf vr : Int → Int)
    (gca side : List T) : List Libdiff.Hunk :=
  match Libdiff.diff_items items 0 0 true (some (dcost gca side)) gca side vf vr with
  | .ok hunks => hunks
  | .error _ => []

section Calls
variable (f : Files T) (diff_items : List T → List T → List Libdiff.Hunk) (enable : MergeFcn → Bool)

inductive Calls : List (Region T) → Region T → List (Region T) → Prop where
  | start {c : Region T} {next : List (Region T)} : find_conflicts f = .ok (c :: next) →
      Calls [] c next
  | call {done next next' : List (Region T)} {c c' : Region T} {fcn : MergeFcn} :
      Calls done c next → c.merged = none → enable fcn = true →
      fcn.fcn f diff_items c next = .ok (some (c', next')) →
      Calls done { c' with algos := c'.algos ++ [fcn] } next'
  | advance {done next : List (Region T)} {c c' : Region T} :
      Calls done c (c' :: next) → Calls (done ++ [c]) c' next

/-- The places of the loop of `do_weave_merge`, and the regions it still has there. -/
inductive Turns (start end_ : Nat) : Marks → List (Region T) → Prop where
  | found {regions : List (Region T)} : find_conflicts f = .ok regions →
      Turns start end_ (fun _ => 0) regions
  | resolved {mk : Marks} {c c' : Region T} {next next' : List (Region T)} :
      Turns start end_ mk (c :: next) → Passes f start end_ mk c → start ≤ c.start_seq →
      resolve_conflict f diff_items enable c next = .ok (c', next') → Turns start end_ c'.end_ next'
  | skipped {mk : Marks} {c : Region T} {next : List (Region T)} :
      Turns start end_ mk (c :: next) → Passes f start end_ mk c → ¬ start ≤ c.start_seq →
      Turns start end_ c.end_ next

/-- A region that both sides deleted comes to `merge_common_deletes` as it is. -/
structure Endless (c : Region T) (next : List (Region T)) : Prop where
  same : enable .merge_same_changes = false
  deletes : enable .merge_common_deletes = true
  deleted : c.len .left = 0 ∧ c.len .right = 0
  apart : enable .merge_conflicts = true → merge_conflicts f c next = .ok none

/-- The merge of the range ends; a common line has one number on all sides, and over the whole range
every line of a side is printed once. -/
def Merges (start end_ : Nat) : Prop :=
  ∃ fuel out, do_weave_merge f diff_items enable fuel start end_ = .ok out ∧ (∀ p ∈ out, p.Agrees f) ∧
    (start = 0 → end_ = eof → ∀ side, out.flatMap (Printed.places side) = List.range (f.n side))

variable {f diff_items enable}

theorem Calls.listed {done next : List (Region T)} {c : Region T}
    (calls : Calls f diff_items enable done c next) :
    ∃ mk, Listed f f.n mk c next ∧ ∀ rest, Cover f f.n mk rest → Cover f f.n (fun _ => 0)
    (done ++ rest) := by
  induction calls with
  | start found =>
    obtain ⟨regions,found',queue,_⟩ := find_conflicts_queue f
    rw [found] at found'
    cases found'
    exact ⟨_,queue.listed,fun _ cover => cover⟩
  | call _ _ _ called ih =>
    obtain ⟨mk,listed,before⟩ := ih
    obtain ⟨did,called',move⟩ := fcn_move diff_items _ listed.placed listed.end_seq
    rw [called] at called'
    cases called'
    exact ⟨mk,((move _ _ rfl).listed listed (fun _ => rfl)).algos _,before⟩
  | @advance done next c c' _ ih =>
    obtain ⟨mk,listed,before⟩ := ih
    refine ⟨c.end_,listed.queue.listed,?_⟩
    intro rest cover
    rw [append_assoc]
    exact before (c :: rest) ⟨listed.cover.1,listed.cover.2.1,cover⟩

theorem Calls.cover {done next : List (Region T)} {c : Region T}
    (calls : Calls f diff_items enable done c next) :
    Cover f f.n (fun _ => 0) (done ++ c :: next) := by
  obtain ⟨mk,listed,before⟩ := calls.listed
  exact before _ listed.cover

variable (f diff_items enable) in
/-- A successful call of an enabled function on a region that is not merged. -/
def Called (before after : Region T × List (Region T)) : Prop :=
  ∃ fcn c' next', before.1.merged = none ∧ enable fcn = true ∧
    fcn.fcn f diff_items before.1 before.2 = .ok (some (c', next')) ∧
    after = ({ c' with algos := c'.algos ++ [fcn] }, next')

theorem Calls.lighter {done : List (Region T)} {run : Nat → Region T × List (Region T)}
    (calls : Calls f diff_items enable done (run 0).1 (run 0).2)
    (called : ∀ n, Called f diff_items enable (run n) (run (n + 1))) (n : Nat) :
    Calls f diff_items enable done (run n).1 (run n).2 ∧
      weight f (run n).1 (run n).2 + n ≤ weight f (run 0).1 (run 0).2 := by
  induction n with
  | zero => exact ⟨calls,le_rfl⟩
  | succ n ih =>
    obtain ⟨before,bound⟩ := ih
    obtain ⟨fcn,c',next',unmerged,enabled,ran,after⟩ := called n
    obtain ⟨_,_,_,unmerged',_⟩ := called (n + 1)
    obtain ⟨mk,listed,_⟩ := before.listed
    obtain ⟨did,ran',moves⟩ := fcn_move diff_items fcn listed.placed listed.end_seq
    rw [ran] at ran'
    cases ran'
    rw [after] at unmerged' ⊢
    have less : weight f c' next' < weight f (run n).1 (run n).2 :=
      (moves c' next' rfl).weight_lt listed unmerged'
    have same : weight f { c' with algos := c'.algos ++ [fcn] } next' = weight f c' next' := rfl
    exact ⟨before.call unmerged enabled ran,by dsimp only; omega⟩

theorem weaveLoop_no_assertion (start end_ fuel : Nat) (mk : Marks) (regions : List (Region T))
    (queue : Queue f mk regions) :
    weaveLoop f diff_items enable start end_ fuel mk regions ≠ .error .assertion := by
  induction fuel generalizing mk regions with
  | zero =>
    intro failed
    cases failed
  | succ fuel ih =>
    cases regions with
    | nil =>
      obtain ⟨distance,printed,done,ran,_,_⟩ := Common.printed queue.cover start end_
      rw [weaveLoop,if_pos distance,ran]
      intro failed
      cases failed
    | cons c next =>
      have listed := queue.listed
      obtain ⟨distance,printed,done,ran,_,_⟩ := queue.cover.1.printed start end_
      have later (mk : Marks) (regions : List (Region T)) (queue : Queue f mk regions)
          (print : List (Printed T) → List (Printed T)) :
          (weaveLoop f diff_items enable start end_ fuel mk regions).map print ≠
            .error .assertion := by
        have rest := ih mk regions queue
        generalize weaveLoop f diff_items enable start end_ fuel mk regions = result at rest
        cases result with
        | ok out =>
          intro failed
          cases failed
        | error stop =>
          intro failed
          cases failed
          exact rest rfl
      rw [weaveLoop,if_pos distance,ran,Except.bind]
      split
      · intro failed
        cases failed
      split
      · obtain ⟨c',next',resolved,listed',_⟩ := resolve_conflict_spec diff_items
          (runKeeps_true diff_items (fun _ => rfl)) listed (queue.waiting c (by simp)) trivial
        rw [resolved,Except.bind]
        exact later c'.end_ next' listed'.queue _
      · exact later c.end_ next listed.queue _

theorem do_weave_merge_no_assertion (f : Files T) (diff_items : List T → List T → List Libdiff.Hunk)
    (enable : MergeFcn → Bool) (fuel start end_ : Nat) :
    do_weave_merge f diff_items enable fuel start end_ ≠ .error .assertion := by
  obtain ⟨regions,found,queue,_⟩ := find_conflicts_queue f
  unfold do_weave_merge
  rw [found,Except.bind]
  exact weaveLoop_no_assertion start end_ fuel _ regions queue

variable {start end_ : Nat} {mk : Marks} {c : Region T} {next : List (Region T)}

private theorem resolve_conflict_shorter (diff_items : List T → List T → List Libdiff.Hunk)
    (listed : Listed f f.n mk c next) (waiting : Waiting f c) (ends : ¬ Endless f enable c next) :
    ∃ c' next', resolve_conflict f diff_items enable c next = .ok (c', next') ∧
      Listed f f.n mk c' next' ∧
      c'.start = c.start ∧ (NonEmpty c' ∨ next'.length ≤ next.length) := by
  by_cases good : enable .merge_same_changes = true ∨ enable .merge_common_deletes = false
  · obtain ⟨c',next',resolved,listed',start,lines⟩ := resolve_conflict_spec diff_items
      (runKeeps_nonEmpty diff_items (fun _ => rfl) good) listed waiting waiting.nonempty
    exact ⟨c',next',resolved,listed',start,.inl lines⟩
  rw [not_or,Bool.not_eq_true,Bool.not_eq_false] at good
  by_cases live : Live c
  · obtain ⟨c',next',resolved,listed',start,live'⟩ := resolve_conflict_spec diff_items
      (runKeeps diff_items (fun _ => rfl) (kept_live _)) listed waiting live
    exact ⟨c',next',resolved,listed',start,.inl live'.nonEmpty⟩
  have joins : enable .merge_conflicts = true ∧ merge_conflicts f c next ≠ .ok none := by
    by_contra apart
    unfold Live at live
    exact ends ⟨good.1,good.2,by omega,fun enabled => by_contra (fun joins => apart ⟨enabled,joins⟩)⟩
  obtain ⟨did,called,_⟩ := fcn_move diff_items .merge_conflicts listed.placed listed.end_seq
  cases did with
  | none => exact absurd called joins.2
  | some did =>
    obtain ⟨c',next',resolved,listed',start,holds⟩ := resolve_conflict_spec diff_items
      (runKeeps_joined diff_items (fun _ => rfl) joins.1 called) listed waiting (.inl ⟨rfl,rfl⟩)
    refine ⟨c',next',resolved,listed',start,?_⟩
    rcases holds with ⟨rfl,rfl⟩ | live' | ⟨_,short⟩ | ⟨_,_,short⟩
    · exact .inr le_rfl
    · exact .inl live'.nonEmpty
    · exact .inr (Nat.le_of_lt short)
    · exact .inr short

theorem weave_complete
    (ends : ∀ mk c next, Turns f diff_items enable start end_ mk (c :: next) →
      Passes f start end_ mk c →
      start ≤ c.start_seq → ¬ Endless f enable c next) :
    ∃ fuel out, do_weave_merge f diff_items enable fuel start end_ = .ok out ∧
      Complete f (fun _ => 0) (Origin f) start end_ out := by
  have resolves : Resolves diff_items enable f start end_ (Turns f diff_items enable start end_)
      (Origin f) := by
    refine ⟨fun _ _ _ turns passes before => turns.skipped passes before,?_⟩
    intro mk c next listed waiting turns passes inRange
    obtain ⟨c',next',resolved,listed',first,shorter⟩ := resolve_conflict_shorter diff_items
      listed waiting
      (ends mk c next turns passes inRange)
    obtain ⟨_,_,resolved',_,_,origin⟩ := resolve_conflict_spec diff_items
      (runKeeps diff_items (fun _ => rfl) (kept_origin _)) listed
      waiting (fun _ merged => by cases waiting.merged ▸ merged)
    rw [resolved] at resolved'
    cases resolved'
    exact ⟨c',next',resolved,listed',first,shorter,origin,turns.resolved passes inRange resolved⟩
  obtain ⟨regions,found,queue,_⟩ := find_conflicts_queue f
  obtain ⟨fuel,out,ran,complete⟩ := weaveLoop_spec resolves _ regions queue (.found found)
  refine ⟨fuel,out,?_,complete⟩
  unfold do_weave_merge
  rwa [found]

omit [DecidableEq T] in
theorem Complete.merges {Q : Region T → Prop} {out : List (Printed T)}
    (complete : Complete f (fun _ => 0) Q start end_ out) :
    (∀ p ∈ out, p.Agrees f) ∧
      (start = 0 → end_ = eof → ∀ side,
      out.flatMap (Printed.places side) = List.range (f.n side)) := by
  refine ⟨complete.agrees,?_⟩
  intro zero whole side
  rw [complete.places zero whole side,Nat.sub_zero,range_eq_range']

theorem Turns.queue {regions : List (Region T)}
    (turns : Turns f diff_items enable start end_ mk regions) :
    Queue f mk regions := by
  induction turns with
  | found found =>
    obtain ⟨_,found',queue,_⟩ := find_conflicts_queue f
    rw [found] at found'
    cases found'
    exact queue
  | resolved _ _ _ resolved ih =>
    obtain ⟨_,_,resolved',listed,_⟩ := resolve_conflict_spec diff_items
      (runKeeps_true diff_items (fun _ => rfl)) ih.listed
      (ih.waiting _ mem_cons_self) trivial
    rw [resolved] at resolved'
    cases resolved'
    exact listed.queue
  | skipped _ _ _ ih => exact ih.listed.queue

theorem weaveLoop_passes {fuel : Nat} {out : List (Printed T)} (passes : Passes f start end_ mk c)
    (ran : weaveLoop f diff_items enable start end_ fuel mk (c :: next) = .ok out) :
    ∃ fuel' out, fuel' < fuel ∧
      (if start ≤ c.start_seq then (resolve_conflict f diff_items enable c next).bind
        (fun r => weaveLoop f diff_items enable start end_ fuel' r.1.end_ r.2)
      else weaveLoop f diff_items enable start end_ fuel' c.end_ next) = .ok out := by
  obtain ⟨printed,common⟩ := passes
  cases fuel with
  | zero => cases ran
  | succ fuel =>
    rw [weaveLoop] at ran
    split at ran
    · rw [common,Except.bind] at ran
      rw [if_neg Bool.false_ne_true] at ran
      split at ran
      · cases resolved : resolve_conflict f diff_items enable c next with
        | error stop =>
          rw [resolved] at ran
          cases ran
        | ok r =>
          rw [resolved,Except.bind] at ran
          cases later : weaveLoop f diff_items enable start end_ fuel r.1.end_ r.2 with
          | error stop =>
            rw [later] at ran
            cases ran
          | ok out' =>
            exact ⟨fuel,out',Nat.lt_succ_self _,by rw [if_pos (by assumption)]; exact later⟩
      · cases later : weaveLoop f diff_items enable start end_ fuel c.end_ next with
        | error stop =>
          rw [later] at ran
          cases ran
        | ok out' => exact ⟨fuel,out',Nat.lt_succ_self _,by rw [if_neg (by assumption)]; exact later⟩
    · cases ran

theorem Turns.ends {regions : List (Region T)}
    (turns : Turns f diff_items enable start end_ mk regions) {fuel : Nat} {out : List (Printed T)}
    (ran : do_weave_merge f diff_items enable fuel start end_ = .ok out) :
    ∃ fuel out, weaveLoop f diff_items enable start end_ fuel mk regions = .ok out := by
  induction turns with
  | found found =>
    unfold do_weave_merge at ran
    rw [found] at ran
    exact ⟨fuel,out,ran⟩
  | resolved _ passes inRange resolved ih =>
    obtain ⟨_,_,ran'⟩ := ih
    obtain ⟨fuel',out',_,later⟩ := weaveLoop_passes passes ran'
    rw [if_pos inRange,resolved] at later
    exact ⟨fuel',out',later⟩
  | skipped _ passes before ih =>
    obtain ⟨_,_,ran'⟩ := ih
    obtain ⟨fuel',out',_,later⟩ := weaveLoop_passes passes ran'
    rw [if_neg before] at later
    exact ⟨fuel',out',later⟩

end Calls

section Deleted
variable {f : Files T} {diff_items : List T → List T → List Libdiff.Hunk} {enable : MergeFcn → Bool}
  {c : Region T} {next : List (Region T)}

omit [DecidableEq T] in
theorem texts_nil {side : Side} (none : c.len side = 0) : c.texts f side = [] := by
  unfold Region.texts
  rw [lines_nil none]
  rfl

/-- Without lines of left and right only four functions have something to do. -/
theorem idle_of_deleted (placed : Placed f c) (deleted : c.len .left = 0 ∧ c.len .right = 0)
    (fcn : MergeFcn)
    (other : fcn ∉
      [.merge_conflicts,.merge_same_changes,.merge_only_one,.merge_content,.merge_common_deletes]) :
    fcn.fcn f diff_items c next = .ok none := by
  have left : c.texts f .left = [] := texts_nil deleted.1
  have right : c.texts f .right = [] := texts_nil deleted.2
  cases fcn with
  | merge_common_header =>
    rw [MergeFcn.fcn,merge_common_header,left,right]
    rfl
  | merge_added_oneside =>
    have none : c.end_ .left = c.start .left :=
      Nat.le_antisymm (Nat.le_of_sub_eq_zero deleted.1) (placed.ordered .left)
    rw [MergeFcn.fcn,merge_added_oneside,if_pos]
    exact any_eq_true.mpr ⟨.left,mem_all .left,beq_iff_eq.mpr none⟩
  | merge_common_footer =>
    rw [MergeFcn.fcn,merge_common_footer,left,right]
    rfl
  | merge_with_following_gca =>
    rw [MergeFcn.fcn,merge_with_following_gca,deleted.1,deleted.2]
    rfl
  | merge_conflicts | merge_same_changes | merge_only_one | merge_content | merge_common_deletes =>
    simp at other

theorem tryFcns_idle (fcns rest : List MergeFcn) (changed : Bool)
    (idle : ∀ fcn ∈ fcns, enable fcn = true → fcn.fcn f diff_items c next = .ok none) :
    tryFcns f diff_items enable (fcns ++ rest) changed c next = tryFcns f diff_items enable rest
      changed c next := by
  induction fcns with
  | nil => rfl
  | cons fcn fcns ih =>
    rw [cons_append,tryFcns]
    have later := ih (fun other member => idle other (mem_cons_of_mem fcn member))
    by_cases enabled : enable fcn = true
    · rwa [if_pos enabled,idle fcn mem_cons_self enabled]
    · rwa [if_neg enabled]

variable (diff_items next) in
/-- The first part of the split has no lines. At most `merge_only_one` takes it. -/
theorem spent_tryFcns (placed : Placed f c) (spent : ∀ side, c.len side = 0) (split : c.split = true)
    (same : enable .merge_same_changes = false) :
    ∃ changed c', tryFcns f diff_items enable mergefcns false c next = .ok (changed, c', next) ∧
      c'.end_ = c.end_ ∧ ¬ (changed = true ∧ c'.merged.isNone = true) := by
  have deleted : c.len .left = 0 ∧ c.len .right = 0 := ⟨spent .left,spent .right⟩
  have idle (fcn : MergeFcn) (enabled : enable fcn = true) (other : fcn ≠ .merge_only_one) :
      fcn.fcn f diff_items c next = .ok none := by
    cases fcn with
    | merge_conflicts =>
      cases next with
      | nil => rfl
      | cons tmp rest => exact if_pos split
    | merge_same_changes =>
      rw [same] at enabled
      cases enabled
    | merge_only_one => exact absurd rfl other
    | merge_content =>
      have none : c.start .gca = c.end_ .gca :=
        Nat.le_antisymm (placed.ordered .gca) (Nat.le_of_sub_eq_zero (spent .gca))
      exact if_pos none
    | merge_common_deletes =>
      rw [MergeFcn.fcn,merge_common_deletes,deletesAtEnd_all placed .gca (spent .left),spent .gca,
        Nat.zero_min]
      rfl
    | merge_common_header | merge_added_oneside | merge_common_footer | merge_with_following_gca =>
      exact idle_of_deleted placed deleted _ (by simp)
  by_cases one : enable .merge_only_one = true
  · have table : mergefcns = [.merge_conflicts,.merge_same_changes] ++
      (.merge_only_one :: mergefcns.drop 3) := rfl
    have merged : MergeFcn.fcn f diff_items c next .merge_only_one =
        .ok (some ({ c with merged := some [] }, next)) := by
      rw [MergeFcn.fcn,merge_only_one]
      unfold samedata
      rw [texts_nil (spent .gca),texts_nil (spent .left),if_pos (decide_eq_true rfl),
        lines_nil (spent .right)]
    rw [table,
      tryFcns_idle _ _ _
      (fun fcn member enabled => idle fcn enabled (by rintro rfl; simp at member)),tryFcns,
      if_pos one,merged]
    refine ⟨true,_,rfl,rfl,?_⟩
    rintro ⟨_,none⟩
    cases none
  · refine ⟨false,c,?_,rfl,fun again => absurd again.1 Bool.false_ne_true⟩
    have table : mergefcns = mergefcns ++ [] := rfl
    rw [table,tryFcns_idle]
    · rfl
    · intro fcn _ enabled
      apply idle fcn enabled
      rintro rfl
      exact one enabled

structure Stuck (f : Files T) (enable : MergeFcn → Bool) (c : Region T) (next : List (Region T)) :
    Prop where
  placed : Placed f c
  some_ : 0 < c.len .gca
  waiting : Waiting f c
  endless : Endless f enable c next

theorem Turns.stuck {start end_ : Nat} {mk : Marks}
    (turns : Turns f diff_items enable start end_ mk (c :: next))
    (endless : Endless f enable c next) : Stuck f enable c next := by
  have placed := turns.queue.listed.placed
  have waiting := turns.queue.waiting c mem_cons_self
  refine ⟨placed,?_,waiting,endless⟩
  obtain ⟨side,less⟩ := waiting.nonempty
  have none := endless.deleted
  have starts := placed.twin.1
  have ends := placed.twin.2
  unfold Region.len at none ⊢
  cases side <;> omega

variable (f c) in
/-- What `merge_common_deletes` puts back. -/
def putBack : Region T := splitTail f c (fun _ => 0)

theorem Stuck.putBack (stuck : Stuck f enable c next) : Stuck f enable (putBack f c) next := by
  have placed : Placed f (Smerge.putBack f c) :=
    ⟨stuck.placed.ordered,stuck.placed.inside,stuck.placed.twin⟩
  refine ⟨placed,stuck.some_,⟨stuck.waiting.nonempty,le_rfl,rfl,rfl⟩,stuck.endless.same,
    stuck.endless.deletes,stuck.endless.deleted,?_⟩
  intro enabled
  have apart := stuck.endless.apart enabled
  cases next with
  | nil => rfl
  | cons tmp rest =>
    rw [merge_conflicts,stuck.waiting.split,if_neg Bool.false_ne_true] at apart
    dsimp only at apart
    split at apart
    · split at apart <;> cases apart
    next far => exact if_neg far

/-- A diff with nothing is one hunk. -/
def OneHunk (diff_items : List T → List T → List Libdiff.Hunk) : Prop :=
  ∀ text texts, diff_items (text :: texts) [] =
    [{ lstart := 0, llen := texts.length + 1, rstart := 0, rlen := 0 }]

variable (stuck : Stuck f enable c next)
include stuck

theorem Stuck.idle (whole : OneHunk diff_items) (fcn : MergeFcn)
    (enabled : enable fcn = true) (other : fcn ≠ .merge_common_deletes) :
    fcn.fcn f diff_items c next = .ok none := by
  have deleted := stuck.endless.deleted
  have left : c.texts f .left = [] := texts_nil deleted.1
  have right : c.texts f .right = [] := texts_nil deleted.2
  have bodies : c.texts f .gcar = c.texts f .gca := by
    unfold Region.texts Region.lines
    rw [f.sameGca,stuck.placed.twin.1,stuck.placed.twin.2]
  have length : (c.texts f .gca).length = c.len .gca := by
    unfold Region.texts
    rw [length_map,stuck.placed.lines_length]
  have some_ := stuck.some_
  obtain ⟨text,texts,gca⟩ := exists_cons_of_length_pos (length ▸ some_)
  cases fcn with
  | merge_conflicts => exact stuck.endless.apart enabled
  | merge_same_changes =>
    rw [stuck.endless.same] at enabled
    cases enabled
  | merge_only_one =>
    rw [MergeFcn.fcn,merge_only_one]
    unfold samedata
    rw [bodies,gca,left,right]
    simp
  | merge_content =>
    have lines : c.start .gca ≠ c.end_ .gca := by
      unfold Region.len at some_
      omega
    rw [MergeFcn.fcn,merge_content,if_neg lines]
    unfold contentHunks
    rw [left,right,gca,whole]
    simp [contentLoop,mayApply,Libdiff.Hunk.lend]
  | merge_common_deletes => exact absurd rfl other
  | merge_common_header | merge_added_oneside | merge_common_footer | merge_with_following_gca =>
    exact idle_of_deleted stuck.placed deleted _ (by simp)

theorem Stuck.deletes : merge_common_deletes f c next =
      .ok (some (splitHead f c (fun _ => 0), Smerge.putBack f c :: next)) := by
  have deleted := stuck.endless.deleted
  have twin : c.len .gcar = c.len .gca := by
    unfold Region.len
    rw [stuck.placed.twin.1,stuck.placed.twin.2]
  have some_ := stuck.some_
  unfold merge_common_deletes
  rw [deletesAtEnd_all stuck.placed .gca deleted.1,deletesAtEnd_all stuck.placed .gcar deleted.2,
    twin,min_self]
  rw [if_neg (by omega)]
  have nothing (idx : Marks) (zero : ∀ side, idx side = 0) : split_conflict f c next idx =
      .ok (some (splitHead f c (fun _ => 0), Smerge.putBack f c :: next)) := by
    rw [show idx = fun _ => 0 from funext zero,split_conflict_ok]
    rfl
  apply nothing
  intro side
  cases side with
  | left => exact deleted.1
  | right => exact deleted.2
  | gca | gcar => exact Nat.sub_self _

theorem Stuck.resolve (whole : OneHunk diff_items) :
    ∃ c', resolve_conflict f diff_items enable c next = .ok (c', Smerge.putBack f c :: next) ∧
      c'.end_ = c.start := by
  have table : mergefcns = [.merge_conflicts,.merge_same_changes,.merge_only_one,.merge_content,
    .merge_common_header,.merge_added_oneside,.merge_common_footer] ++ [.merge_common_deletes,
    .merge_with_following_gca] := rfl
  let head : Region T :=
    { splitHead f c (fun _ => 0) with
      algos := (splitHead f c (fun _ => 0)).algos ++ [.merge_common_deletes] }
  have placed : Placed f head := ⟨fun _ => le_rfl,
    fun side => (stuck.placed.ordered side).trans (stuck.placed.inside side),stuck.placed.twin.1,
    stuck.placed.twin.1⟩
  have spent : ∀ side, head.len side = 0 := splitHead_len (f := f) (fun _ => 0)
  have called : MergeFcn.fcn f diff_items c next .merge_common_deletes =
    .ok (some (splitHead f c (fun _ => 0), Smerge.putBack f c :: next)) := stuck.deletes
  have open_ : ¬ (splitHead f c (fun _ => 0)).merged.isSome = true := by
    rw [show (splitHead f c (fun _ => 0)).merged = c.merged from rfl,stuck.waiting.merged]
    exact Bool.false_ne_true
  have first : tryFcns f diff_items enable mergefcns false c next =
      .ok (true, head, Smerge.putBack f c :: next) := by
    rw [table,
      tryFcns_idle _ _ _
      (fun fcn member enabled => stuck.idle whole fcn enabled (by rintro rfl; simp at member)),
      tryFcns,if_pos stuck.endless.deletes,called,Except.bind]
    dsimp only
    rw [if_neg open_]
    have last : [MergeFcn.merge_with_following_gca] = [.merge_with_following_gca] ++ [] := rfl
    rw [last,tryFcns_idle]
    · rfl
    · intro fcn member _
      rw [mem_singleton.mp member]
      exact idle_of_deleted placed ⟨spent .left,spent .right⟩ _ (by simp)
  obtain ⟨changed,c',second,ends,stop⟩ := spent_tryFcns diff_items (Smerge.putBack f c :: next) placed
    spent rfl stuck.endless.same
  refine ⟨c',?_,ends⟩
  unfold resolve_conflict
  rw [resolveLoop,first,Except.bind]
  rw [if_pos ⟨rfl,by rw [Option.isNone_iff_eq_none]; exact stuck.waiting.merged⟩,resolveLoop,second,
    Except.bind]
  exact if_neg stop

theorem Stuck.weaveLoop (whole : OneHunk diff_items)
    {start end_ : Nat} {mk : Marks} (passes : Passes f start end_ mk c)
    (inRange : start ≤ c.start_seq) (fuel : Nat) (out : List (Printed T)) :
    weaveLoop f diff_items enable start end_ fuel mk (c :: next) ≠ .ok out := by
  induction fuel using Nat.strong_induction_on generalizing c mk out with
  | _ fuel ih =>
    intro ran
    obtain ⟨c',resolved,ends⟩ := stuck.resolve whole
    obtain ⟨fuel',out',less,later⟩ := weaveLoop_passes passes ran
    rw [if_pos inRange,resolved,Except.bind] at later
    have again : Passes f start end_ c'.end_ (Smerge.putBack f c) := by
      refine ⟨[],?_⟩
      rw [ends,show (Smerge.putBack f c).start = c.start from rfl,Nat.sub_self]
      rfl
    exact ih fuel' less stuck.putBack again (inRange.trans stuck.waiting.start_seq) out' later

end Deleted

section
variable (items : Libdiff.Items T) (dcost : List T → List T → Libdiff.Side → Nat → Libdiff.Pos →
  Nat) (vf vr : Int → Int)

omit [DecidableEq T] in
private theorem textHunks_deleted : OneHunk (textHunks items dcost vf vr) := fun _ _ => rfl

/-- The regions are always an exact cover and no assertion fails; the merge of a range ends, with
every line at its place, exactly when it meets no region that is put back as it was. -/
theorem do_weave_merge_covers (enable : MergeFcn → Bool) (f : Files T) :
    (∃ regions, find_conflicts f = .ok regions ∧ Cover f f.n (fun _ => 0) regions) ∧
      (∀ done c next, Calls f (textHunks items dcost vf vr) enable done c next →
        Cover f f.n (fun _ => 0) (done ++ c :: next)) ∧
      (∀ fuel start end_,
        do_weave_merge f (textHunks items dcost vf vr) enable fuel start end_ ≠ .error .assertion) ∧
      ∀ start end_, Merges f (textHunks items dcost vf vr) enable start end_ ↔
        ∀ mk c next, Turns f (textHunks items dcost vf vr) enable start end_ mk (c :: next) →
          Passes f start end_ mk c → start ≤ c.start_seq → ¬ Endless f enable c next := by
  refine ⟨?_,fun done c next calls => calls.cover,
    fun fuel start end_ => do_weave_merge_no_assertion f _ enable fuel start end_,?_⟩
  · obtain ⟨regions,found,queue,_⟩ := find_conflicts_queue f
    exact ⟨regions,found,queue.cover⟩
  intro start end_
  constructor
  · rintro ⟨_,_,ran,_⟩ mk c next turns passes inRange endless
    obtain ⟨fuel,out,later⟩ := turns.ends ran
    exact (turns.stuck endless).weaveLoop (textHunks_deleted items dcost vf vr) passes inRange fuel
      out later
  · intro ends
    obtain ⟨fuel,out,ran,complete⟩ := weave_complete ends
    exact ⟨fuel,out,ran,complete.merges⟩

end

def sides (left right gca : List Nat) : Side → List Nat
  | .left => left
  | .right => right
  | .gca => gca
  | .gcar => gca

def ofSeqs (text : Nat → Nat) (left right gca : List Nat)
    (sorted : ∀ seqs ∈ [left,right,gca], seqs.Pairwise (· < ·) ∧ ∀ seq ∈ seqs,
      seq ≠ 0 ∧ seq < eof) : Files Nat where
  body := fun side => (sides left right gca side).map (fun seq => { seq := seq, text := text seq })
  increasing side := by
    rw [pairwise_map]
    cases side <;> exact (sorted _ (by simp [sides])).1
  numbered side line member := by
    obtain ⟨seq,at_,is⟩ := mem_map.mp member
    rw [← is]
    cases side <;> exact (sorted _ (by simp [sides])).2 seq at_
  sameText side side' line member line' member' same := by
    obtain ⟨seq,_,is⟩ := mem_map.mp member
    obtain ⟨seq',_,is'⟩ := mem_map.mp member'
    rw [← is,← is'] at same ⊢
    exact congrArg text same
  sameGca := rfl

def numberHunks : List Nat → List Nat → List Libdiff.Hunk :=
  textHunks { dcmp := fun a b => a == b, dhash := id } (fun _ _ _ _ _ => 0) (fun _ => 0) (fun _ => 0)

def addedFiles : Files Nat := ofSeqs id [1,3] [1,2,3] [1,3] (by decide)

def withoutSame (fcn : MergeFcn) : Bool := fcn ≠ .merge_same_changes

private theorem added_turns {start end_ : Nat} {mk : Marks} {regions : List (Region Nat)}
    (turns : Turns addedFiles numberHunks withoutSame start end_ mk regions) :
    regions = [] ∨ find_conflicts addedFiles = .ok regions := by
  induction turns with
  | found found => exact .inr found
  | resolved _ _ _ resolved ih =>
    rcases ih with impossible | found
    · cases impossible
    · cases found
      cases resolved
      exact .inl rfl
  | skipped _ _ _ ih =>
    rcases ih with impossible | found
    · cases impossible
    · cases found
      exact .inl rfl

/-- Right added a line; it is merged without `merge_same_changes`. -/
theorem do_weave_merge_covers_added : Merges addedFiles numberHunks withoutSame 0 eof := by
  apply ((do_weave_merge_covers _ _ _ _ withoutSame addedFiles).2.2.2 0 eof).mpr
  intro mk c next turns _ _ endless
  rcases added_turns turns with impossible | found
  · cases impossible
  · cases found
    cases endless.deleted.2

def deletedFiles : Files Nat := ofSeqs id [] [] [1] (by decide)

/-- Both sides deleted the only line: no number of rounds is enough. -/
theorem do_weave_merge_endless :
    ¬ ∃ fuel out, do_weave_merge deletedFiles numberHunks withoutSame fuel 0 eof = .ok out := by
  rintro ⟨_,_,ran⟩
  obtain ⟨c,found,deleted,start⟩ : ∃ c, find_conflicts deletedFiles = .ok [c] ∧
    (c.len .left = 0 ∧ c.len .right = 0) ∧ c.start .gca = 0 := ⟨_,rfl,⟨rfl,rfl⟩,rfl⟩
  have turns : Turns deletedFiles numberHunks withoutSame 0 eof (fun _ => 0) [c] := .found found
  have passes : Passes deletedFiles 0 eof (fun _ => 0) c := by
    refine ⟨[],?_⟩
    rw [start]
    rfl
  obtain ⟨fuel,out,later⟩ := turns.ends ran
  exact (turns.stuck ⟨rfl,rfl,deleted,fun _ => rfl⟩).weaveLoop (textHunks_deleted _ _ _ _) passes
    (Nat.zero_le _) fuel out
    later

/-- On every list of regions of a merge the calls on its head come to an end, in whatever order, and
so does `resolve_conflict`. -/
theorem resolve_conflict_ends {f : Files T} {diff_items : List T → List T → List Libdiff.Hunk}
    {enable : MergeFcn → Bool} {done next : List (Region T)} {c : Region T}
    (calls : Calls f diff_items enable done c next) :
    (¬ ∃ run : Nat → Region T × List (Region T), run 0 = (c, next) ∧
        ∀ n, Called f diff_items enable (run n) (run (n + 1))) ∧
      (c.merged = none → ∃ rounds, ∀ fuel, rounds ≤ fuel → ∃ r,
      resolveLoop f diff_items enable fuel c next = .ok r) := by
  constructor
  · rintro ⟨run,start,called⟩
    have first : Calls f diff_items enable done (run 0).1 (run 0).2 := by
      rwa [start]
    have bound := (first.lighter called (weight f (run 0).1 (run 0).2 + 1)).2
    omega
  · intro unmerged
    refine ⟨weight f c next + 1,?_⟩
    intro fuel enough
    obtain ⟨mk,listed,_⟩ := calls.listed
    obtain ⟨c',next',ran,_⟩ := resolveLoop_spec diff_items
      (runKeeps_true diff_items (fun _ => rfl)) fuel listed unmerged trivial enough
    exact ⟨(c', next'),ran⟩

theorem resolve_conflict_ends_deleted :
    ∃ c, find_conflicts deletedFiles = .ok [c] ∧
      ¬ ∃ run : Nat → Region Nat × List (Region Nat), run 0 = (c, []) ∧
        ∀ n, Called deletedFiles numberHunks (fun _ => true) (run n) (run (n + 1)) :=
  ⟨_,rfl,(resolve_conflict_ends (.start rfl)).1⟩

end BitKeeper.Smerge
