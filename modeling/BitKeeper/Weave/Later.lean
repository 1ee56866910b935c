import BitKeeper.Weave.Differs

/-!
A check-in leaves the versions without the new delta as they were: the lines in its delete blocks show
as before, and of its insert blocks nothing does.
-/

namespace BitKeeper.Weave

open List

variable {view : Nat → Bool} {n : Nat} {r : Reading} {weave out : List Line}

private theorem printstate_phase (hidden : view n = false) (phase : Phase) (state : List Entry) :
    printstate view (phase.state n state) = printstate view state := by
  unfold Phase.state
  split_ifs
  · simp [printstate,hidden]
  · rfl

/-- What lets the reader pass over the blocks of delta `n`. -/
structure Apart (view : Nat → Bool) (n : Nat) (r : Reading) : Prop where
  newest : ∀ e ∈ r.state, e.ser < n
  shown : r.print = printstate view r.state
  other : r.lfPend ≠ n

theorem Apart.block (apart : Apart view n r) (hidden : view n = false)
    (run : reading view out = some r) (bufs : List Bytes) (nonl : Bool) :
    reading view (out ++ .ctrl .ins n false :: bufs.map .data ++ [.ctrl .fin n nonl]) = some r := by
  have passed : reading view (out ++ .ctrl .ins n false :: bufs.map .data) =
      some { r with state := ⟨n,true⟩ :: r.state, print := 0 } := by
    induction bufs using List.reverseRecOn with
    | nil =>
      rw [map_nil,reading_concat,run]
      simp [readLine,changestate_newest (nofun : Kind.ins ≠ .fin) apart.newest,printstate,hidden]
    | append_singleton bufs buf ih =>
      rw [map_append,← cons_append,← append_assoc,map_singleton,reading_concat,ih]
      simp [readLine,whatstate,apart.other]
  rw [reading_concat,passed]
  simp [readLine,changestate_close,apart.other,← apart.shown]

variable {state : List Entry} {last : Nat → Bytes}

theorem Sound.reads (sound : Sound weave state last) (view : Nat → Bool) :
    ∃ r, reading view weave = some r ∧ Reads view weave state last r := by
  obtain ⟨r,run,reads,_⟩ := comparing_follows view .nil nofun nofun sound
  exact ⟨r,run,reads⟩

theorem Sound.apart (sound : Sound weave state last) (older : Older n weave) (real : n ≠ 0)
    (run : reading view weave = some r) : Apart view n r := by
  obtain ⟨r',ran,reads⟩ := sound.reads view
  obtain rfl : r = r' := Option.some.inj (run.symm.trans ran)
  have newest : ∀ e ∈ r.state, e.ser < n := by
    intro e inside
    obtain ⟨line,listed,same⟩ := sound.opened (reads.state_eq ▸ inside)
    exact same ▸ older line listed
  refine ⟨newest,reads.state_eq ▸ reads.print_eq,fun same => ?_⟩
  rcases (reads.pending (same ▸ real)).2 with inside | sealed
  · exact absurd (newest _ (reads.state_eq ▸ inside)) (by simp [same])
  · exact absurd (older _ sealed) (by simp [Line.serial,same])

theorem Edit.reading_eq {phase : Phase} (edit : Edit n phase weave out)
    (sound : Sound weave state last) (older : Older n weave) (real : n ≠ 0)
    (hidden : view n = false) (run : reading view weave = some r) :
    reading view out = some { r with state := phase.state n r.state } := by
  induction edit generalizing state last r with
  | start => exact run
  | @copy phase weave out line edit ih =>
    obtain ⟨before,here⟩ := forall_mem_append.mp older
    have smaller := here line (mem_singleton.mpr rfl)
    rw [reading_concat] at run
    obtain ⟨r0,ran,step⟩ := Option.bind_eq_some_iff.mp run
    cases line with
    | data buf =>
      obtain ⟨_,prior,_⟩ := sound.data_inv
      rw [reading_concat,ih prior before ran]
      simp only [readLine] at step
      simp only [readLine,whatstate_phase,Option.bind_some]
      split_ifs at step ⊢ <;> cases step <;> rfl
    | ctrl type serial nonl =>
      obtain ⟨_,prior,_⟩ := sound.ctrl_inv
      rw [reading_concat,ih prior before ran]
      obtain ⟨state',moved,rfl⟩ := Option.map_eq_some_iff.mp step
      have raised := changestate_phase phase (show serial < n from smaller) moved
      simp [readLine,raised,whatstate_phase,printstate_phase hidden]
  | open_ edit ih =>
    have apart := sound.apart older real run
    rw [reading_concat,ih sound older run]
    simp [readLine,Phase.state,changestate_newest (nofun : Kind.del ≠ .fin) apart.newest,printstate,
      hidden,apart.shown]
  | close edit ih =>
    have apart := sound.apart older real run
    rw [reading_concat,ih sound older run]
    simp [readLine,Phase.state,changestate_close,apart.other,apart.shown]
  | block edit _ ih | last edit _ _ _ ih =>
    exact (sound.apart older real run).block hidden (ih sound older run) _ _

/-- A check-in of a delta that is not in the view. -/
def Adds (view : Nat → Bool) (weave later : List Line) : Prop :=
  ∃ slist n new woven, ChecksIn weave slist n new woven ∧ view n = false ∧ later = woven.weave

variable {later : List Line}

theorem Built.getReg_reading (built : Built weave) (view : Nat → Bool) (windows : Bool) :
    getReg view windows weave = (reading view weave).map fun r =>
      render (eolOf windows) r.texts (r.lfPend != 0) := by
  obtain ⟨last,sound⟩ := built.sound
  refine getReg_eq view windows ?_
  rintro line inside rfl
  exact sound.real inside rfl

theorem Adds.keeps (adds : Adds view weave later) (built : Built weave) (windows : Bool) :
    Built later ∧ getReg view windows later = getReg view windows weave := by
  obtain ⟨slist,n,new,woven,checked,hidden,rfl⟩ := adds
  have grown := Built.delta slist n built checked
  obtain ⟨last,sound⟩ := built.sound
  obtain ⟨diffs,commands,old,read,_,_,wrote⟩ := checked.script
  obtain ⟨phase,_,edit⟩ := deltaWrite_edit sound read wrote
  obtain ⟨r,run,_⟩ := sound.reads view
  refine ⟨grown,?_⟩
  rw [grown.getReg_reading,built.getReg_reading,run,
    edit.reading_eq sound checked.newest checked.real hidden run]
  rfl

/-- Whatever is checked in later, a version without it reads as before. -/
theorem getReg_later (built : Built weave) (run : Relation.ReflTransGen (Adds view) weave later)
    (windows : Bool) :
    getReg view windows later = getReg view windows weave := by
  have both : Built later ∧ getReg view windows later = getReg view windows weave := by
    induction run with
    | refl => exact ⟨built,rfl⟩
    | tail _ adds ih =>
      obtain ⟨grown,same⟩ := adds.keeps ih.1 windows
      exact ⟨grown,same.trans ih.2⟩
  exact both.2

theorem getReg_later_append : ∃ woven, deltaWrite (checkin [97,10] 1 false)
    (· = 1) 2 [97,49,32,49,10,98,10] = .ok woven ∧
    getReg (· = 1) false woven.weave = some [97,10] := by
  obtain ⟨woven,wrote⟩ : ∃ woven, deltaWrite (checkin [97,10] 1 false) (· = 1) 2
    [97,49,32,49,10,98,10] = .ok woven := ⟨_,rfl⟩
  have checked : ChecksIn (checkin [97,10] 1 false) (· = 1) 2 [97,10,98,10] woven :=
    ⟨by decide,by unfold Older; decide,_,_,_,rfl,rfl,rfl,wrote⟩
  exact ⟨woven,wrote,getReg_later (.first [97,10] 1 false (by decide) nofun)
    (.single ⟨_,2,_,woven,checked,rfl,rfl⟩) false⟩

end BitKeeper.Weave
