import BitKeeper.Lockfile.Invariant

/-!
Two live processes never hold the lock where a dead owner's lock is discarded by one process at a
time. Otherwise a process that saw a dead owner removes the lock file, whoever it belongs to by then.
-/

namespace BitKeeper.Lockfile

open List Function Option

def opens (fs : Fs) : Lock → Option Pid
  | .calling c =>
    match c.pc with
    | .stale _ .open_ => fs.file.bind fs.content
    | _ => none
  | _ => none

section Target
variable {fs fs' : Fs} {alive : Pid → Bool} {p d : Pid} {l : Lock}

theorem target_wait (c : Call) : target fs c.wait = none := by
  unfold Call.wait
  split
  · rfl
  · split <;> rfl

theorem target_notStale (c : Call) (last : Bool) : target fs (c.notStale last) = none := by
  unfold Call.notStale
  split
  · rfl
  · exact target_wait c

theorem step_shape (c : Call) :
    (c.step alive p fs).2 = .idle ∨ (c.step alive p fs).2 = .held ∨
      ∃ c', (c.step alive p fs).2 = .calling c' := by
  have waits : ∃ c', c.wait = .calling c' := by
    unfold Call.wait
    split
    · exact ⟨_,rfl⟩
    · split <;> exact ⟨_,rfl⟩
  have notStale : ∀ last, ∃ c', c.notStale last = .calling c' := by
    intro last
    unfold Call.notStale
    split
    · exact ⟨_,rfl⟩
    · exact waits
  unfold Call.step
  cases c.pc with
  | access =>
    dsimp only
    split
    · exact .inr (.inr ⟨_,rfl⟩)
    · exact .inl rfl
  | openUniq =>
    dsimp only
    split
    · exact .inl rfl
    · exact .inr (.inr ⟨_,rfl⟩)
  | wonFile uniq =>
    dsimp only
    split
    · exact .inr (.inl rfl)
    · exact .inr (.inr ⟨_,rfl⟩)
  | exists_ =>
    dsimp only
    right
    right
    split
    · exact ⟨_,rfl⟩
    · split
      · exact ⟨_,rfl⟩
      · exact waits
  | stale last next =>
    right
    right
    cases next with
    | open_ | read fd | findpid pid =>
      dsimp only [Call.staleStep]
      split
      · exact notStale last
      · exact ⟨_,rfl⟩
    | _ => exact ⟨_,rfl⟩
  | giveUp => exact .inl rfl
  | _ => exact .inr (.inr ⟨_,rfl⟩)

theorem staleStep_target {c : Call} {last : Bool} {next : Stale}
    (looks : target (c.staleStep alive fs last next).1 (c.staleStep alive fs last next).2 = some d) :
    target fs (c.goto (.stale last next)) = some d ∨ opens fs (c.goto (.stale last next)) =
      some d := by
  unfold Call.staleStep at looks
  cases next with
  | open_ =>
    right
    change fs.file.bind fs.content = some d
    cases file : fs.file with
    | none =>
      rw [file,target_notStale] at looks
      cases looks
    | some i =>
      rwa [file] at looks
  | read fd =>
    left
    dsimp only at looks
    change fs.content fd = some d
    cases content : fs.content fd with
    | none =>
      rw [content,target_notStale] at looks
      cases looks
    | some pid =>
      rwa [content] at looks
  | findpid pid =>
    left
    dsimp only at looks
    split at looks
    · rw [target_notStale] at looks
      cases looks
    · exact looks
  | unlinkUniq pid =>
    left
    exact looks
  | unlinkFile pid => cases looks

private theorem step_target {r : Fs × Lock} (ran : l.step alive p fs = some r)
    (looks : target r.1 r.2 = some d) :
    target fs l = some d ∨ opens fs l = some d := by
  cases l with
  | idle | held => cases ran
  | unlockUniq | unlockFile =>
    cases ran
    cases looks
  | calling c =>
    cases ran
    unfold Call.step at looks
    generalize at_ : c.pc = pc at looks
    cases pc with
    | stale last next =>
      have here : Lock.calling c = c.goto (.stale last next) := by
        rw [← at_]
        rfl
      rw [here]
      exact staleStep_target looks
    | exists_ =>
      dsimp only at looks
      split at looks
      · cases looks
      · split at looks
        · cases looks
        · rw [target_wait] at looks
          cases looks
    | access | openUniq | cacheFile uniq | cacheLinksUniq | cacheLinksFile | wonLinks | wonFile uniq
    | nfsLinks | nfsFile uniq =>
      dsimp only at looks
      split at looks <;> cases looks
    | _ => cases looks

theorem Frame.target {q : Pid} (frame : Frame fs fs' alive q l) (ok : LockOk fs alive q l) :
    target fs' l = target fs l := by
  cases l with
  | calling c =>
    unfold Lockfile.target
    dsimp only
    have known := ok
    unfold LockOk at known
    dsimp only at known
    split
    next last fd at_ =>
      rw [at_] at known
      obtain ⟨_,d,content,_⟩ := known
      rw [content]
      exact frame.content fd d content
    all_goals rfl
  | _ => rfl

end Target

/-- No process dies while another looks at its lock, and a dead owner's lock is opened when nobody
else looks at one. -/
def Careful (s : State) : Act → Prop
  | .die p => ∀ q, q ≠ p → s.alive q = true → target s.fs (s.lock q) ≠ some p
  | .run p => ∀ d, opens s.fs (s.lock p) = some d → s.alive d = false →
      ∀ q d', q ≠ p → s.alive q = true → target s.fs (s.lock q) = some d' → s.alive d' = true
  | _ => True

abbrev Moves := Runs.Moves act Careful

structure Inv (s : State) : Prop where
  fs : s.fs.Ok
  locks : ∀ p, s.alive p = true ∨ s.lock p = .idle → LockOk s.fs s.alive p (s.lock p)
  alone : ∀ p q d d', s.alive p = true → s.alive q = true → target s.fs (s.lock p) = some d →
    s.alive d = false →
    target s.fs (s.lock q) = some d' → s.alive d' = false → p = q

theorem inv_init : Inv State.init := by
  refine ⟨⟨nodup_nil,nofun, fun _ _ => rfl, fun i file => by cases file⟩,
    ?_,fun p q d d' _ _ looks => by cases looks⟩
  intro p _
  refine ⟨rfl,?_⟩
  rintro ⟨i,file,_⟩
  cases file

section Steps
variable {s s' : State} {p : Pid}

theorem Inv.move (inv : Inv s) {l : Lock} (lockOk : LockOk s.fs s.alive p l)
    (blind : target s.fs l = none) :
    Inv { s with lock := update s.lock p l } := by
  refine ⟨inv.fs,?_,?_⟩
  · intro q lives
    by_cases same : q = p
    · subst same
      dsimp only
      rwa [update_self]
    · dsimp only at lives ⊢
      rw [update_of_ne same] at lives ⊢
      exact inv.locks q lives
  · intro q q' d d' acts acts' looks dead looks' dead'
    dsimp only at looks looks'
    have notHere : q ≠ p := by
      intro same
      rw [same,update_self,blind] at looks
      cases looks
    have notThere : q' ≠ p := by
      intro same
      rw [same,update_self,blind] at looks'
      cases looks'
    rw [update_of_ne notHere] at looks
    rw [update_of_ne notThere] at looks'
    exact inv.alone q q' d d' acts acts' looks dead looks' dead'

theorem Inv.run (inv : Inv s) {r : Fs × Lock} (acts : s.alive p = true)
    (ran : (s.lock p).step s.alive p s.fs = some r) (careful : Careful s (.run p)) :
    Inv { s with fs := r.1, lock := update s.lock p r.2 } := by
  have kept := lockStep_kept acts inv.fs (inv.locks p (.inl acts)) ran
  have frames : ∀ q, q ≠ p → s.alive q = true ∨ s.lock q = .idle →
      Frame s.fs r.1 s.alive q (s.lock q) := by
    intro q other lives
    have lockOk := inv.locks q lives
    apply kept.effect.frame inv.fs acts other
    · rcases lives with lives | idle
      · exact .inl lives
      · rw [idle] at lockOk
        exact .inr lockOk
    · intro d dead looks looks'
      rcases lives with lives | idle
      · exact other (inv.alone q p d d lives acts looks' dead looks dead)
      · rw [idle] at looks'
        cases looks'
  have targets : ∀ q, q ≠ p → s.alive q = true → target r.1 (s.lock q) = target s.fs (s.lock q) := by
    intro q other lives
    exact (frames q other (.inl lives)).target (inv.locks q (.inl lives))
  have lonely : ∀ d, target r.1 r.2 = some d → s.alive d = false → ∀ q d', q ≠ p → s.alive q = true →
      target s.fs (s.lock q) = some d' → s.alive d' = true := by
    intro d looks dead q d' other lives looks'
    rcases step_target ran looks with old | new
    · by_contra gone
      exact other (inv.alone q p d' d lives acts looks' (Bool.not_eq_true _ ▸ gone) old dead)
    · exact careful d new dead q d' other lives looks'
  refine ⟨kept.effect.ok inv.fs,?_,?_⟩
  · intro q lives
    by_cases same : q = p
    · subst same
      dsimp only
      rw [update_self]
      exact kept.lockOk
    · dsimp only at lives ⊢
      rw [update_of_ne same] at lives ⊢
      exact (frames q same lives).lockOk (inv.locks q lives)
  · intro q q' d d' lives lives' looks dead looks' dead'
    dsimp only at lives lives' looks dead looks' dead'
    by_cases here : q = p
    · by_cases there : q' = p
      · rw [here,there]
      · rw [here,update_self] at looks
        rw [update_of_ne there,targets q' there lives'] at looks'
        rw [lonely d looks dead q' d' there lives' looks'] at dead'
        cases dead'
    · rw [update_of_ne here,targets q here lives] at looks
      by_cases there : q' = p
      · rw [there,update_self] at looks'
        rw [lonely d' looks' dead' q d here lives looks] at dead
        cases dead
      · rw [update_of_ne there,targets q' there lives'] at looks'
        exact inv.alone q q' d d' lives lives' looks dead looks' dead'

theorem StaleOk.die {fs : Fs} {alive : Pid → Bool} {last : Bool} {next : Stale} {c : Call}
    (ok : StaleOk fs alive next) (apart : target fs (c.goto (.stale last next)) ≠ some p) :
    StaleOk fs (update alive p false) next := by
  have still : ∀ d, target fs (c.goto (.stale last next)) = some d →
      update alive p false d = alive d := by
    intro d looks
    apply update_of_ne
    intro same
    rw [same] at looks
    exact apart looks
  cases next with
  | open_ => trivial
  | read i =>
    obtain ⟨d,content,dead⟩ := ok
    refine ⟨d,content,?_⟩
    rwa [still d content]
  | findpid d => exact fun dead => ok ((still d rfl).symm.trans dead)
  | unlinkUniq d | unlinkFile d => exact ⟨(still d rfl).trans ok.1,ok.2⟩

theorem LockOk.die {fs : Fs} {alive : Pid → Bool} {q : Pid} {l : Lock} (ok : LockOk fs alive q l)
    (apart : target fs l ≠ some p) : LockOk fs (update alive p false) q l := by
  cases l with
  | calling c =>
    unfold LockOk at ok ⊢
    dsimp only at ok ⊢
    cases at_ : c.pc with
    | stale last next =>
      have here : Lock.calling c = c.goto (.stale last next) := by
        rw [← at_]
        rfl
      rw [at_] at ok
      rw [here] at apart
      exact ⟨ok.1,ok.2.die apart⟩
    | _ =>
      rwa [at_] at ok
  | _ => exact ok

theorem Inv.die (inv : Inv s) (careful : Careful s (.die p)) :
    Inv { s with alive := update s.alive p false } := by
  have before : ∀ q, update s.alive p false q = true → q ≠ p ∧ s.alive q = true := by
    intro q lives
    have other : q ≠ p := by
      intro same
      rw [same,update_self] at lives
      cases lives
    rw [update_of_ne other] at lives
    exact ⟨other,lives⟩
  refine ⟨inv.fs,?_,?_⟩
  · rintro q (lives | idle)
    · obtain ⟨other,lives⟩ := before q lives
      exact (inv.locks q (.inl lives)).die (careful q other lives)
    · have ok := inv.locks q (.inr idle)
      rw [idle] at ok ⊢
      exact ok
  · intro q q' d d' lives lives' looks dead looks' dead'
    obtain ⟨other,lives⟩ := before q lives
    obtain ⟨other',lives'⟩ := before q' lives'
    have gone : ∀ q d, q ≠ p → s.alive q = true → target s.fs (s.lock q) = some d →
        update s.alive p false d = false → s.alive d = false := by
      intro q d other lives looks dead
      have apart : d ≠ p := by
        intro same
        rw [same] at looks
        exact careful q other lives looks
      rwa [update_of_ne apart] at dead
    exact inv.alone q q' d d' lives lives' looks (gone q d other lives looks dead) looks'
      (gone q' d' other' lives' looks' dead')

theorem Inv.chdir (inv : Inv s) (dir : Bool) : Inv { s with fs := { s.fs with dir := dir } } := by
  have frames : ∀ q l, Frame s.fs { s.fs with dir := dir } s.alive q l :=
    fun q l => frame_same rfl rfl rfl
  exact ⟨⟨inv.fs.apart,inv.fs.below,inv.fs.empty,inv.fs.written⟩,
    fun p lives => (frames p (s.lock p)).lockOk (inv.locks p lives), inv.alone⟩

theorem Inv.act (inv : Inv s) {a : Act} (careful : Careful s a) (acted : act s a = some s') :
    Inv s' := by
  cases a with
  | call p waitsecs =>
    obtain ⟨free,⟨⟩⟩ := ite_none_right_eq_some.mp acted
    have ok := inv.locks p (.inl free.1)
    rw [free.2] at ok
    exact inv.move ok rfl
  | run p =>
    obtain ⟨lives,went⟩ := ite_none_right_eq_some.mp acted
    cases ran : (s.lock p).step s.alive p s.fs with
    | none =>
      rw [ran] at went
      cases went
    | some r =>
      rw [ran] at went
      cases went
      exact inv.run lives ran careful
  | unlock p =>
    obtain ⟨holds,⟨⟩⟩ := ite_none_right_eq_some.mp acted
    have ok := inv.locks p (.inl holds.1)
    rw [holds.2] at ok
    exact inv.move ok rfl
  | die p =>
    obtain ⟨_,⟨⟩⟩ := ite_none_right_eq_some.mp acted
    exact inv.die careful
  | mkdir =>
    cases acted
    exact inv.chdir true
  | rmdir =>
    obtain ⟨_,⟨⟩⟩ := ite_none_right_eq_some.mp acted
    exact inv.chdir false

end Steps

variable {s : State}

theorem inv_of_reaches (reaches : Runs.Reaches act Careful State.init s) : Inv s :=
  reaches.invariant inv_init (fun _ _ _ inv careful acted => inv.act careful acted)

theorem Holds.owns (inv : Inv s) {p : Pid} (holds : Holds s p) : Owns s.fs p := by
  have ok := inv.locks p (.inl holds.1)
  rw [holds.2] at ok
  exact ok.1.owns ok.2

/-- In a careful run at most one live process holds the lock. -/
theorem sccs_lockfile_excludes {s : State} (reaches : Runs.Reaches act Careful State.init s)
    {p q : Pid} (first : Holds s p) (second : Holds s q) : p = q :=
  (first.owns (inv_of_reaches reaches)).unique (second.owns (inv_of_reaches reaches))

def runs (p : Pid) (n : Nat) : List Act := List.replicate n (.run p)

def Act.pid : Act → Option Pid
  | .call p _ | .run p | .unlock p | .die p => some p
  | .mkdir | .rmdir => none

theorem act_lock {s' : State} {a : Act} {q : Pid} (acted : act s a = some s')
    (other : a.pid ≠ some q) : s'.lock q = s.lock q := by
  cases a with
  | run p =>
    obtain ⟨_,went⟩ := ite_none_right_eq_some.mp acted
    obtain ⟨r,_,⟨⟩⟩ := map_eq_some_iff.mp went
    exact update_of_ne (fun same => other (congrArg some same.symm)) _ _
  | call p _ | unlock p =>
    obtain ⟨_,⟨⟩⟩ := ite_none_right_eq_some.mp acted
    exact update_of_ne (fun same => other (congrArg some same.symm)) _ _
  | die p | rmdir =>
    obtain ⟨_,⟨⟩⟩ := ite_none_right_eq_some.mp acted
    rfl
  | mkdir =>
    cases acted
    rfl

/-! ### Runs of processes 1 and 2 -/

def Few (s : State) : Prop := ∀ q, q ≠ 1 → q ≠ 2 → s.lock q = .idle

/-- The other one does not look at a lock. -/
def quiet (s : State) (a : Act) : Bool :=
  (a.pid = some 1 ∧ target s.fs (s.lock 2) = none) ∨ (a.pid = some 2 ∧ target s.fs (s.lock 1) = none)

theorem Few.careful (few : Few s) {a : Act} (alone : quiet s a = true) : Careful s a := by
  have blind : ∀ p q, a.pid = some p → q ≠ p → target s.fs (s.lock q) = none := by
    intro p q mine other
    rcases of_decide_eq_true alone with ⟨is,none_⟩ | ⟨is,none_⟩
    all_goals
      cases is.symm.trans mine
      by_cases near : q = 1 ∨ q = 2
      · grind
      · rw [not_or] at near
        rw [few q near.1 near.2]
        rfl
  cases a with
  | die p =>
    intro q other _
    rw [blind p q rfl other]
    exact nofun
  | run p =>
    intro _ _ _ q _ other _ looks
    rw [blind p q rfl other] at looks
    cases looks
  | _ => trivial

theorem Few.kept (few : Few s) {s' : State} {a : Act} (alone : quiet s a = true)
    (same : ∀ q, a.pid ≠ some q → s'.lock q = s.lock q) : Few s' := by
  intro q first second
  rw [same q ?_,few q first second]
  rcases of_decide_eq_true alone with ⟨mine,_⟩ | ⟨mine,_⟩
  · rw [mine]
    exact fun same => first (some.inj same).symm
  · rw [mine]
    exact fun same => second (some.inj same).symm

/-- Process 1 dies with the lock, and 2 takes it. -/
theorem sccs_lockfile_excludes_heir :
    ∃ s, Runs.Reaches act Careful State.init s ∧ s.alive 1 = false ∧ Holds s 2 ∧ ∀ q, Holds s q →
      q = 2 := by
  have ends : (Runs.after (fun s a => if quiet s a then act s a else none) State.init
      ([.call 1 0] ++ runs 1 11 ++ [.die 1,.call 2 0] ++ runs 2 22)).map
        (fun s => (s.alive 1, s.alive 2, s.lock 2)) = some (false, true, .held) := by decide
  obtain ⟨s,ran,seen⟩ := map_eq_some_iff.mp ends
  injection seen with dead seen
  injection seen with lives held
  have reaches : Runs.Reaches act Careful State.init s := by
    refine .after .start _ ran (P := Few) (fun _ _ _ => rfl) fun _ _ _ few acted => ?_
    obtain ⟨alone,did⟩ := ite_none_right_eq_some.mp acted
    exact ⟨did,few.careful alone,few.kept alone fun _ => act_lock did⟩
  exact ⟨s,reaches,dead,⟨lives,held⟩,
    fun q holds => sccs_lockfile_excludes reaches holds ⟨lives,held⟩⟩

/-- Process 1 dies with the lock; 2 and 3 find out; 2 takes the lock, then 3 removes it and takes it
as well. -/
def twoOwners : List Act :=
  [.call 1 0] ++ runs 1 11 ++ [.die 1,.call 2 0] ++ runs 2 13 ++ [.call 3 0] ++ runs 3 13 ++ runs 2
    9 ++ runs 3 9

theorem sccs_lockfile_two_owners :
    ∃ s, Runs.Reaches act (fun _ _ => True) State.init s ∧ Holds s 2 ∧ Holds s 3 := by
  have ends : (Runs.after act State.init twoOwners).map
    (fun s => (s.alive 2, s.lock 2, s.alive 3, s.lock 3)) =
      some (true, .held, true, .held) := by decide
  obtain ⟨s,ran,seen⟩ := map_eq_some_iff.mp ends
  injection seen with alive₂ seen
  injection seen with lock₂ seen
  injection seen with alive₃ lock₃
  exact ⟨s,.after .start twoOwners ran trivial fun _ _ _ _ did => ⟨did,trivial,trivial⟩,
    ⟨alive₂,lock₂⟩,alive₃,lock₃⟩

end BitKeeper.Lockfile
