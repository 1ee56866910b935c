import BitKeeper.Smerge.Resolve

/-!
`do_weave_merge`: with a cover to start from no assertion fails, and the places of what is printed are
all the lines of every side, each one once and in order.
-/

namespace BitKeeper.Smerge

open List

variable {T : Type} {f : Files T} {mk : Marks}

def Printed.places (side : Side) : Printed T → List Nat
  | .common mk => [mk side]
  | .region c => List.range' (c.start side) (c.len side)

def Printed.Agrees (f : Files T) : Printed T → Prop
  | .common mk => ∀ side, mk side < f.n side ∧ f.seqAt side (mk side) = f.seqAt .gca (mk .gca)
  | .region _ => True

theorem printCommon_spec (start end_ k : Nat) (mk : Marks) (inside : ∀ side, mk side + k ≤ f.n side)
    (same : ∀ j, j < k → ∀ side, f.seqAt side (mk side + j) = f.seqAt .gca (mk .gca + j)) :
    ∃ printed : List (Printed T), ∃ done, printCommon f start end_ k mk = .ok (printed, done) ∧
      (∀ p ∈ printed, p.Agrees f ∧ ∃ mk, p = .common mk) ∧
      (start = 0 → end_ = eof → done = false ∧
        ∀ side, printed.flatMap (Printed.places side) = List.range' (mk side) k) := by
  induction k generalizing mk with
  | zero => exact ⟨[],false,rfl,by simp,fun _ _ => ⟨rfl,fun side => rfl⟩⟩
  | succ k ih =>
    obtain ⟨printed,done,ran,agrees,all⟩ := ih (fun side => mk side + 1)
      (fun side => by have here := inside side; omega)
      (fun j less side => by
        have later := same (j + 1) (by omega) side
        rw [Nat.add_comm j 1,← Nat.add_assoc,← Nat.add_assoc] at later
        exact later)
    have here := same 0 (Nat.succ_pos k)
    rw [printCommon,if_pos ⟨(here .left).symm,(here .right).symm⟩]
    have first : f.seqAt .gca (mk .gca) < eof := by
      have bound := inside .gca
      exact f.seqAt_lt_eof (by omega)
    split
    · rename_i early
      refine ⟨printed,done,ran,agrees,?_⟩
      intro zero
      rw [zero,Nat.le_zero] at early
      exact absurd early (f.seqAt_ne_zero _ _)
    split
    · rename_i late
      refine ⟨[],true,rfl,by simp,?_⟩
      intro _ whole
      omega
    rw [ran]
    refine ⟨.common mk :: printed,done,rfl,?_,?_⟩
    · intro p member
      rcases mem_cons.mp member with rfl | later
      · refine ⟨?_,mk,rfl⟩
        intro side
        have bound := inside side
        exact ⟨by omega,here side⟩
      · exact agrees p later
    · intro zero whole
      obtain ⟨notDone,places⟩ := all zero whole
      refine ⟨notDone,?_⟩
      intro side
      rw [flatMap_cons,places,range'_succ]
      rfl

theorem Common.printed {upto : Marks} (common : Common f mk upto) (start end_ : Nat) :
    sameDistance mk upto = true ∧ ∃ printed : List (Printed T), ∃ done,
      printCommon f start end_ (upto .gca - mk .gca) mk = .ok (printed, done) ∧
      (∀ p ∈ printed, p.Agrees f ∧ ∃ mk, p = .common mk) ∧
      (start = 0 → end_ = eof → done = false ∧
        ∀ side, printed.flatMap (Printed.places side) = List.range' (mk side)
    (upto side - mk side)) := by
  obtain ⟨k,ends,inside,same⟩ := common
  have length : ∀ side, upto side - mk side = k := by
    intro side
    rw [ends side,Nat.add_sub_cancel_left]
  constructor
  · unfold sameDistance
    rw [all_sides]
    intro side
    apply beq_iff_eq.mpr
    rw [ends .gca,ends side]
    omega
  · obtain ⟨printed,done,ran,agrees,all⟩ := printCommon_spec start end_ k mk
      (fun side => by rw [← ends side]; exact inside side) same
    refine ⟨printed,done,by rw [length]; exact ran,agrees,?_⟩
    intro zero whole
    obtain ⟨notDone,places⟩ := all zero whole
    refine ⟨notDone,?_⟩
    intro side
    rw [length]
    exact places side

structure Queue (f : Files T) (mk : Marks) (regions : List (Region T)) : Prop where
  cover : Cover f f.n mk regions
  twin : ∀ r ∈ regions, Twin .gca .gcar r
  end_seq : ∀ r ∈ regions, r.end_seq ≠ 0
  waiting : ∀ r ∈ regions, Waiting f r

variable {c : Region T} {next : List (Region T)}

theorem Queue.listed (queue : Queue f mk (c :: next)) : Listed f f.n mk c next := by
  refine ⟨queue.cover,queue.twin,queue.end_seq,?_,
    fun r member => queue.waiting r (mem_cons_of_mem c member)⟩
  intro split
  rw [(queue.waiting c (by simp)).split] at split
  cases split

theorem Listed.queue (listed : Listed f f.n mk c next) : Queue f c.end_ next :=
  ⟨listed.cover.2.2,fun r member => listed.twin r (mem_cons_of_mem c member),
    fun r member => listed.end_seq r (mem_cons_of_mem c member), listed.waiting⟩

theorem find_conflicts_queue (f : Files T) :
    ∃ regions, find_conflicts f = .ok regions ∧ Queue f (fun _ => 0) regions ∧ ∀ c ∈ regions,
      New f c := by
  obtain ⟨regions,found,cover,new⟩ := find_conflicts_spec f
  refine ⟨regions,found,⟨cover,?_,?_,?_⟩,new⟩
  · intro r member
    exact (new r member).twins .gca .gcar f.sameGca.symm
  · intro r member
    exact (new r member).end_seq
  · intro r member
    exact ⟨(new r member).nonempty,(new r member).start_seq,(new r member).merged,
      (new r member).split⟩

private theorem range'_two {a b c : Nat} (first : a ≤ b) (second : b ≤ c) :
    List.range' a (b - a) ++ List.range' b (c - b) = List.range' a (c - a) := by
  have joined := @range'_append a (b - a) (c - b) 1
  rwa [Nat.one_mul,show a + (b - a) = b by omega,show b - a + (c - b) = c - a by omega] at joined

section Loop
variable [DecidableEq T] (diff_items : List T → List T → List Libdiff.Hunk) (enable : MergeFcn → Bool)

/-- The common lines before the region are printed and the range goes on behind them. -/
def Passes (f : Files T) (start end_ : Nat) (mk : Marks) (c : Region T) : Prop :=
  ∃ printed : List (Printed T), printCommon f start end_ (c.start .gca - mk .gca) mk =
    .ok (printed, false)

/-- A region that is printed has lines, or else there are fewer regions after it. -/
structure Resolves (f : Files T) (start end_ : Nat) (I : Marks → List (Region T) → Prop)
    (Q : Region T → Prop) : Prop where
  skip : ∀ mk c next, I mk (c :: next) → Passes f start end_ mk c → ¬ start ≤ c.start_seq →
    I c.end_ next
  resolve : ∀ mk c next, Listed f f.n mk c next → Waiting f c → I mk (c :: next) →
    Passes f start end_ mk c →
    start ≤ c.start_seq →
    ∃ c' next', resolve_conflict f diff_items enable c next = .ok (c', next') ∧
      Listed f f.n mk c' next' ∧ c'.start = c.start ∧ (NonEmpty c' ∨ next'.length ≤ next.length) ∧
        Q c' ∧
      I c'.end_ next'

structure Complete (f : Files T) (mk : Marks) (Q : Region T → Prop) (start end_ : Nat)
    (out : List (Printed T)) : Prop where
  agrees : ∀ p ∈ out, p.Agrees f
  regions : ∀ c, .region c ∈ out → Q c
  places : start = 0 → end_ = eof → ∀ side,
    out.flatMap (Printed.places side) = List.range' (mk side) (f.n side - mk side)

variable {I : Marks → List (Region T) → Prop} {Q : Region T → Prop} {diff_items enable}
  {start end_ : Nat}

omit [DecidableEq T] in
theorem complete_common {printed : List (Printed T)}
    (common : ∀ p ∈ printed, p.Agrees f ∧ ∃ mk, p = .common mk)
    (places : start = 0 → end_ = eof → ∀ side,
      printed.flatMap (Printed.places side) = List.range' (mk side) (f.n side - mk side)) :
    Complete f mk Q start end_ printed := by
  refine ⟨fun p member => (common p member).1,?_,places⟩
  intro c member
  obtain ⟨_,mk,same⟩ := common _ member
  cases same

omit [DecidableEq T] in
theorem Complete.append {printed out : List (Printed T)} {mk' : Marks}
    (common : ∀ p ∈ printed, p.Agrees f ∧ ∃ mk, p = .common mk)
    (complete : Complete f mk' Q start end_ out)
    (places : start = 0 → end_ = eof → ∀ side, printed.flatMap (Printed.places side) ++
      List.range' (mk' side) (f.n side - mk' side) = List.range' (mk side) (f.n side - mk side)) :
    Complete f mk Q start end_ (printed ++ out) := by
  refine ⟨?_,?_,?_⟩
  · intro p member
    rcases mem_append.mp member with first | second
    · exact (common p first).1
    · exact complete.agrees p second
  · intro c member
    rcases mem_append.mp member with first | second
    · obtain ⟨_,mk,same⟩ := common _ first
      cases same
    · exact complete.regions c second
  · intro zero whole side
    rw [flatMap_append,complete.places zero whole side,places zero whole side]

omit [DecidableEq T] in
theorem Complete.region {out : List (Printed T)} (listed : Listed f f.n mk c next) (holds : Q c)
    (complete : Complete f c.end_ Q start end_ out) :
    Complete f c.start Q start end_ (.region c :: out) := by
  refine ⟨?_,?_,?_⟩
  · exact forall_mem_cons.mpr ⟨trivial,complete.agrees⟩
  · intro d member
    rcases mem_cons.mp member with same | rest
    · cases same
      exact holds
    · exact complete.regions d rest
  · intro zero whole side
    rw [flatMap_cons,complete.places zero whole side]
    exact range'_two (listed.placed.ordered side) (listed.placed.inside side)

omit [DecidableEq T] in
theorem Listed.progress {c' : Region T} {next' : List (Region T)} (listed : Listed f f.n mk c' next')
    (shorter : NonEmpty c' ∨ next'.length ≤ next.length) :
    Prod.Lex (· < ·) (· < ·) (remaining f c'.end_, next'.length)
    (remaining f mk, next.length + 1) := by
  have up : ∀ side, mk side ≤ c'.end_ side ∧ c'.end_ side ≤ f.n side := fun side =>
    ⟨Nat.le_trans (listed.cover.1.le side) (listed.placed.ordered side), listed.placed.inside side⟩
  by_cases moved : ∃ side, mk side < c'.end_ side
  · obtain ⟨side,less⟩ := moved
    exact .left _ _ (remaining_lt up less)
  · have still : c'.end_ = mk := by
      funext side
      exact Nat.le_antisymm (Nat.not_lt.mp (fun less => moved ⟨side,less⟩)) (up side).1
    rw [still]
    refine .right _ ?_
    rcases shorter with ⟨side,less⟩ | fewer
    · have before := listed.cover.1.le side
      exact absurd ⟨side,by omega⟩ moved
    · exact Nat.lt_succ_of_le fewer

theorem weaveLoop_spec (resolves : Resolves diff_items enable f start end_ I Q) (mk : Marks)
    (regions : List (Region T)) (queue : Queue f mk regions) (known : I mk regions) :
    ∃ fuel out, weaveLoop f diff_items enable start end_ fuel mk regions = .ok out ∧
      Complete f mk Q start end_ out := by
  match regions with
  | [] =>
    obtain ⟨distance,printed,done,ran,common,all⟩ := Common.printed queue.cover start end_
    refine ⟨1,printed,?_,complete_common common (fun zero whole => (all zero whole).2)⟩
    rw [weaveLoop,if_pos distance,ran]
    rfl
  | c :: next =>
    have listed := queue.listed
    have waiting := queue.waiting c (by simp)
    obtain ⟨distance,printed,done,ran,common,all⟩ := queue.cover.1.printed start end_
    cases done with
    | true =>
      refine ⟨1,printed,?_,complete_common common (fun zero whole => by cases (all zero whole).1)⟩
      rw [weaveLoop,if_pos distance,ran,Except.bind]
      rfl
    | false =>
    by_cases inRange : start ≤ c.start_seq
    · obtain ⟨c',next',resolved,listed',first,shorter,holds,known'⟩ :=
        resolves.resolve mk c next listed waiting known ⟨printed,ran⟩ inRange
      have progress := listed'.progress shorter
      obtain ⟨fuel,out,later,complete⟩ := weaveLoop_spec resolves c'.end_ next' listed'.queue known'
      refine ⟨fuel + 1,printed ++ .region c' :: out,?_,
        (complete.region listed' holds).append common ?_⟩
      · rw [weaveLoop,if_pos distance,ran,Except.bind]
        rw [if_neg Bool.false_ne_true,if_pos inRange,resolved,Except.bind]
        rw [later]
        rfl
      · intro zero whole side
        rw [(all zero whole).2 side,first]
        exact range'_two (queue.cover.1.le side) (queue.cover.1.inside side)
    · have progress := listed.progress
        (.inl waiting.nonempty : NonEmpty c ∨ next.length ≤ next.length)
      obtain ⟨fuel,out,later,complete⟩ := weaveLoop_spec resolves c.end_ next listed.queue
        (resolves.skip mk c next known ⟨printed,ran⟩ inRange)
      refine ⟨fuel + 1,printed ++ out,?_,complete.append common (fun zero => absurd zero (by omega))⟩
      rw [weaveLoop,if_pos distance,ran,Except.bind]
      rw [if_neg Bool.false_ne_true,if_neg inRange,later]
      rfl
termination_by (remaining f mk, regions.length)
decreasing_by all_goals exact progress

end Loop

end BitKeeper.Smerge
