import BitKeeper.Locking.Steps

/-!
Readers and writers exclude each other, and leave no file behind, where no process exits while
another one looks at its write lock.
-/

namespace BitKeeper.Locking

open List Function Option
open Lockfile (Pid Lock)

inductive Follows (alive : Pid → Bool) (p : Pid) (fs : Lockfile.Fs) (lock : Lock) :
    Lockfile.Fs → Lock → Prop where
  | same : Follows alive p fs lock fs lock
  | mkdir : Follows alive p fs lock { fs with dir := true } lock
  | rmdir : fs.file = none → fs.uniqs = [] → Follows alive p fs lock { fs with dir := false } lock
  | call : lock = .idle → Follows alive p fs lock fs (Lockfile.sccs_lockfile 0)
  | run {r : Lockfile.Fs × Lock} : lock.step alive p fs = some r → Follows alive p fs lock r.1 r.2
  | unlock : lock = .held → Follows alive p fs lock fs .unlockUniq

section
variable {alive : Pid → Bool} {p : Pid} {repo : Repo} {x : Proc}

theorem follows_same {repo' : Repo} {x' : Proc} (writer : repo'.writer = repo.writer)
    (lock : x'.lock = x.lock) :
    Follows alive p repo.writer x.lock repo'.writer x'.lock := by
  rw [writer,lock]
  exact .same

theorem rmdirReaders_writer (repo : Repo) : repo.rmdirReaders.writer = repo.writer := by
  unfold Repo.rmdirReaders
  split <;> rfl

private theorem creat_writer (repo : Repo) (p : Pid) : (repo.creat p).writer = repo.writer := by
  unfold Repo.creat
  split <;> rfl

theorem rmdirWriter_follows {x' : Proc} (lock : x'.lock = x.lock) :
    Follows alive p repo.writer x.lock repo.rmdirWriter.writer x'.lock := by
  rw [lock]
  unfold Repo.rmdirWriter
  split
  next empty => exact .rmdir empty.1 empty.2
  next => exact .same

theorem scanned_follows {repo' : Repo} {i n : Nat} (writer : repo'.writer = repo.writer)
    (held : x.lock = .held) :
    Follows alive p repo.writer x.lock repo'.writer (x.scanned i n).lock := by
  rw [writer]
  unfold Proc.scanned
  split
  · exact .same
  · exact .unlock held

private theorem step_follows {readers : List Pid} (ok : ProcOk readers p x) {r : Repo × Proc}
    (ran : x.step alive p repo = some r) :
    Follows alive p repo.writer x.lock r.1.writer r.2.lock := by
  obtain ⟨pc,lock,rd,wr⟩ := x
  cases pc with
  | idle => cases ran
  | rdExists i | rdMkdir i | rdUnlink i | wrExists i | scan i | scanUnlink i r todo n
  | scanFindpid i r todo n rm
  | downOpen | downRead pid | downExists | downMkdir | unOpen down | rdUnlock =>
    cases ran
    exact .same
  | rdAccess i | rdCheck i | rdWriter i | downCheck =>
    cases ran
    apply follows_same rfl
    split <;> rfl
  | rdCreat i | downCreat =>
    cases ran
    exact follows_same (creat_writer _ _) rfl
  | rdRmdir i =>
    cases ran
    exact follows_same (rmdirReaders_writer _) rfl
  | wrMkdir i =>
    cases ran
    exact .mkdir
  | wrAccess i =>
    cases ran
    split
    · exact .call ok.2
    · exact .same
  | wrLock i | wrBack i =>
    obtain ⟨q,stepped,made⟩ := map_eq_some_iff.mp ran
    rw [← made]
    exact .run stepped
  | wrRmdir i | wrBackRmdir i | unRmdir down =>
    cases ran
    exact rmdirWriter_follows rfl
  | scanOpen i todo n rm =>
    cases todo with
    | nil =>
      cases ran
      split
      · exact .same
      · exact scanned_follows rfl ok.2
    | cons r todo =>
      cases ran
      exact .same
  | scanRmdir i n =>
    cases ran
    exact scanned_follows (rmdirReaders_writer _) ok.2
  | unRead down pid =>
    cases ran
    split
    next own => exact .unlock ((ok.2.resolve_right (fun other => other.1 own)).2)
    next => exact .same
  | unLock down error =>
    obtain ⟨q,stepped,made⟩ := map_eq_some_iff.mp ran
    rw [← made]
    split
    · split <;> exact .run stepped
    · exact .run stepped

end

def Careful (s : State) : Act → Prop
  | .exit p => ∀ q, q ≠ p → s.alive q = true → Lockfile.target s.repo.writer (s.proc q).lock ≠ some p
  | _ => True

section
variable {s s' : State}

theorem view_set (s : State) (repo : Repo) (p : Pid) (x : Proc) :
    State.view { s with repo := repo, proc := update s.proc p x } =
      { fs := repo.writer, lock := update s.view.lock p x.lock, alive := s.alive } := by
  unfold State.view
  congr 1
  funext q
  by_cases same : q = p
  · subst same
    dsimp only
    rw [update_self,update_self]
  · dsimp only
    rw [update_of_ne same,update_of_ne same]

variable {p : Pid}

theorem Inv.dead_idle (inv : Inv s) (gone : s.alive p = false) : (s.proc p).lock = .idle := by
  obtain ⟨idle,_,notWriter⟩ := inv.dead p gone
  have ok := inv.procs p
  unfold ProcOk at ok
  rwa [idle,notWriter] at ok

theorem Inv.careful_run (inv : Inv s) (locks : Lockfile.Inv s.view) (p : Pid) :
    Lockfile.Careful s.view (.run p) := by
  intro d found gone
  have owns : Lockfile.Owns s.repo.writer d := by
    unfold Lockfile.opens at found
    split at found
    next c _ =>
      split at found
      next =>
        obtain ⟨i,file,content⟩ := bind_eq_some_iff.mp found
        exact ⟨i,file,content⟩
      next => cases found
    next => cases found
  exact absurd owns (idle_not_owns locks (inv.dead_idle gone))

variable {x : Proc}

theorem Follows.acted {repo : Repo} (inv : Inv s) (locks : Lockfile.Inv s.view)
    (acts : s.alive p = true)
    (follows : Follows s.alive p s.repo.writer (s.proc p).lock repo.writer x.lock) :
    Lockfile.Moves s.view
      (State.view { s with repo := repo, proc := update s.proc p x }) := by
  rw [view_set]
  have same : update s.view.lock p (s.proc p).lock = s.view.lock := update_eq_self p s.view.lock
  have now : s.view.lock p = (s.proc p).lock := rfl
  generalize (s.proc p).lock = lock at follows same now
  generalize repo.writer = fs at follows ⊢
  generalize x.lock = lock' at follows ⊢
  cases follows with
  | same =>
    left
    rw [same]
    rfl
  | mkdir =>
    right
    refine ⟨.mkdir,trivial,?_⟩
    rw [same]
    rfl
  | rmdir file uniqs =>
    right
    refine ⟨.rmdir,trivial,?_⟩
    rw [same]
    exact if_pos ⟨file,uniqs⟩
  | call idle =>
    right
    exact ⟨.call p 0,trivial,if_pos ⟨acts,now.trans idle⟩⟩
  | run stepped =>
    right
    refine ⟨.run p,inv.careful_run locks p,?_⟩
    unfold Lockfile.act
    dsimp only
    rw [if_pos (show s.view.alive p = true from acts),now]
    exact congrArg (Option.map _) stepped
  | unlock held =>
    right
    exact ⟨.unlock p,trivial,if_pos ⟨acts,now.trans held⟩⟩

theorem Inv.starts (inv : Inv s) (acts : s.alive p = true)
    (stepped : Known s p (s.proc p) → Stepped s p s.repo x) (lock : x.lock = (s.proc p).lock) :
    Inv (s.set p x) ∧ Lockfile.Moves s.view (s.set p x).view := by
  refine ⟨inv.stepped acts (stepped (inv.known p)),.inl ?_⟩
  unfold State.set
  rw [view_set,lock]
  exact congrArg (fun lock => { s.view with lock := lock }) (update_eq_self p s.view.lock)

theorem start_stepped (inv : Inv s) (idle : x.pc = .idle) (known : Known s p x) :
    (x.rd = false → Stepped s p s.repo (x.goto (.rdExists 0))) ∧
      (x.wr = false → Stepped s p s.repo (x.goto (.wrExists 0))) ∧
      Stepped s p s.repo (x.goto .downOpen) ∧
      Stepped s p s.repo { x with pc := .rdUnlock, rd := false } ∧
      Stepped s p s.repo { x with pc := .unOpen false, wr := false } := by
  have nobody : ∀ r, (none : Option Pid) = some r → s.alive r = false := fun _ none => by cases none
  obtain ⟨pc,lock,rd,wr⟩ := x
  subst idle
  have ok := known.proc
  have sees := known.sees
  refine ⟨?_,?_,known.stay rfl inv.dir ok (fun may _ => may) id sees nobody, ?_,?_⟩
  · intro off
    exact known.stay rfl inv.dir ⟨ok,off⟩ (fun may _ => may) id sees nobody
  · intro off
    subst off
    exact known.stay rfl inv.dir ⟨rfl,ok⟩ (fun may _ => may) id sees nobody
  · exact known.stay rfl inv.dir ⟨ok,rfl⟩ (fun _ _ => rfl) (fun now => by cases now) sees nobody
  · refine known.stay rfl inv.dir ⟨rfl,?_⟩ (fun may _ => may) id (fun _ _ _ => rfl) nobody
    cases wr with
    | true => exact .inl ok
    | false => exact .inr ok

theorem Inv.exit (inv : Inv s)
    (idle : (s.proc p).pc = .idle ∧ (s.proc p).rd = false ∧ (s.proc p).wr = false) :
    Inv { s with alive := update s.alive p false } := by
  refine ⟨?_,inv.procs,inv.files,inv.reads,inv.dir,inv.sees,?_⟩
  · intro q gone
    by_cases same : q = p
    · rwa [same]
    · dsimp only at gone
      rw [update_of_ne same] at gone
      exact inv.dead q gone
  · intro w r removes
    dsimp only
    by_cases same : r = p
    · rw [same,update_self]
    · rw [update_of_ne same]
      exact inv.removes w r removes

theorem Inv.act (inv : Inv s) (locks : Lockfile.Inv s.view) {a : Act} (careful : Careful s a)
    (acted : act s a = some s') :
    Inv s' ∧ Lockfile.Moves s.view s'.view := by
  cases a with
  | rdlock p =>
    obtain ⟨may,⟨⟩⟩ := ite_none_right_eq_some.mp acted
    exact inv.starts may.1 (fun known => (start_stepped inv may.2.1 known).1 may.2.2) rfl
  | wrlock p =>
    obtain ⟨may,⟨⟩⟩ := ite_none_right_eq_some.mp acted
    exact inv.starts may.1 (fun known => (start_stepped inv may.2.1 known).2.1 may.2.2) rfl
  | downgrade p =>
    obtain ⟨may,⟨⟩⟩ := ite_none_right_eq_some.mp acted
    exact inv.starts may.1 (fun known => (start_stepped inv may.2 known).2.2.1) rfl
  | rdunlock p =>
    obtain ⟨may,⟨⟩⟩ := ite_none_right_eq_some.mp acted
    exact inv.starts may.1 (fun known => (start_stepped inv may.2 known).2.2.2.1) rfl
  | wrunlock p =>
    obtain ⟨may,⟨⟩⟩ := ite_none_right_eq_some.mp acted
    exact inv.starts may.1 (fun known => (start_stepped inv may.2 known).2.2.2.2) rfl
  | run p =>
    obtain ⟨lives,went⟩ := ite_none_right_eq_some.mp acted
    obtain ⟨r,ran,made⟩ := map_eq_some_iff.mp went
    rw [← made]
    exact ⟨inv.stepped lives (step_stepped inv locks lives ran),
      (step_follows (inv.procs p) ran).acted inv locks lives⟩
  | exit p =>
    obtain ⟨may,⟨⟩⟩ := ite_none_right_eq_some.mp acted
    exact ⟨inv.exit may.2,.inr ⟨.die p,careful,if_pos may.1⟩⟩

end

theorem inv_init (wrDir rdDir : Bool) : Inv (State.init wrDir rdDir) where
  dead _ gone := by cases gone
  procs _ := rfl
  files _ absent := absurd absent not_mem_nil
  reads _ reads := by cases reads
  dir _ := rfl
  sees _ _ _ reads := by cases reads
  removes _ _ removes := by cases removes

private theorem init_view (wrDir rdDir : Bool) :
    Runs.Reaches Lockfile.act Lockfile.Careful Lockfile.State.init (State.init wrDir rdDir).view := by
  cases wrDir with
  | true => exact .start
  | false =>
    have removed : Lockfile.act Lockfile.State.init .rmdir = some (State.init false rdDir).view := rfl
    have may : Lockfile.Careful Lockfile.State.init .rmdir := trivial
    exact .step .start may removed

variable {s : State}

private theorem reaches_view {wrDir rdDir : Bool}
    (reaches : Runs.Reaches act Careful (State.init wrDir rdDir) s) :
    Inv s ∧ Runs.Reaches Lockfile.act Lockfile.Careful Lockfile.State.init s.view := by
  induction reaches with
  | start => exact ⟨inv_init wrDir rdDir,init_view wrDir rdDir⟩
  | step _ careful acted ih =>
    obtain ⟨kept,moves⟩ := ih.1.act (Lockfile.inv_of_reaches ih.2) careful acted
    exact ⟨kept,ih.2.moves moves⟩

def AllUnlocked (s : State) : Prop :=
  ∀ p, (s.proc p).pc = .idle ∧ (s.proc p).rd = false ∧ (s.proc p).wr = false

variable {p : Pid}

theorem writer_shape {readers : List Pid} {x : Proc} (ok : ProcOk readers p x)
    (writer : x.wr = true) :
    x.lock = .held ∧ ∀ r, ¬ Sees x r := by
  have blind : x.wr ≠ false := by
    rw [writer]
    exact Bool.noConfusion
  have plainly : x.lock = plain x.wr → x.lock = .held := by
    intro is
    rwa [writer] at is
  unfold ProcOk at ok
  unfold Sees
  cases at_ : x.pc with
  | idle | downOpen =>
    rw [at_] at ok
    exact ⟨plainly ok,fun _ => blind⟩
  | rdWriter i =>
    rw [at_] at ok
    exact ⟨plainly ok.1.1,fun _ => blind⟩
  | rdExists i | rdMkdir i | rdAccess i | rdCreat i | rdCheck i | rdUnlink i | rdRmdir i | rdUnlock
  | downRead pid =>
    rw [at_] at ok
    exact ⟨plainly ok.1,fun _ => blind⟩
  | downExists | downMkdir | downCreat | downCheck =>
    rw [at_] at ok
    exact ⟨ok.2,fun _ => blind⟩
  | _ =>
    rw [at_] at ok
    exact absurd ok.1 blind

theorem Inv.writer_alone (inv : Inv s) (locks : Lockfile.Inv s.view) {q : Pid} (other : q ≠ p)
    (writer : (s.proc p).wr = true) : (s.proc q).rd = false ∧ (s.proc q).wr = false := by
  obtain ⟨held,blind⟩ := writer_shape (inv.procs p) writer
  constructor
  · by_contra reader
    apply blind q
    apply inv.sees p q other
    have reads : (s.proc q).rd = true := by
      rwa [← Bool.not_eq_false]
    unfold Proc.reads
    rw [reads]
    exact Bool.true_or _
  · by_contra second
    have writes : (s.proc q).wr = true := by
      rwa [← Bool.not_eq_false]
    obtain ⟨held',_⟩ := writer_shape (inv.procs q) writes
    exact other ((held_owns inv locks held').unique (held_owns inv locks held))

theorem Inv.no_files (inv : Inv s) (locks : Lockfile.Inv s.view) (all : AllUnlocked s) :
    s.repo.readers = [] ∧ s.repo.writer.file = none ∧ s.repo.writer.uniqs = [] := by
  have idle : ∀ p, (s.proc p).lock = .idle := by
    intro p
    have ok := inv.procs p
    unfold ProcOk at ok
    rwa [(all p).1,(all p).2.2] at ok
  refine ⟨?_,?_,?_⟩
  · apply eq_nil_iff_forall_not_mem.mpr
    intro p file
    have may := inv.files p file
    unfold Proc.mayRead Proc.reads at may
    rw [(all p).1,(all p).2.1] at may
    cases may
  · cases file : s.repo.writer.file with
    | none => rfl
    | some i =>
      obtain ⟨d,content⟩ := locks.fs.written i file
      exact absurd ⟨i,file,content⟩ (idle_not_owns locks (idle d))
  · apply eq_nil_iff_forall_not_mem.mpr
    intro e member
    have ok := locks.locks e.1 (.inr (idle e.1))
    change Lockfile.LockOk s.repo.writer s.alive e.1 (s.proc e.1).lock at ok
    rw [idle] at ok
    have absent : s.repo.writer.uniqs.lookup e.1 = none := ok.1
    have different := lookup_eq_none_iff.mp absent e member
    rw [bne_self_eq_false] at different
    cases different

def runs (p : Pid) (n : Nat) : List Act := List.replicate n (.run p)

def Act.pid : Act → Pid
  | .rdlock p | .wrlock p | .downgrade p | .rdunlock p | .wrunlock p | .run p | .exit p => p

theorem act_proc {s' : State} {a : Act} {q : Pid} (acted : act s a = some s') (other : q ≠ a.pid) :
    s'.proc q = s.proc q := by
  cases a with
  | exit p =>
    obtain ⟨_,⟨⟩⟩ := ite_none_right_eq_some.mp acted
    rfl
  | run p =>
    obtain ⟨_,went⟩ := ite_none_right_eq_some.mp acted
    obtain ⟨r,_,rfl⟩ := map_eq_some_iff.mp went
    exact update_of_ne other _ _
  | _ =>
    obtain ⟨_,⟨⟩⟩ := ite_none_right_eq_some.mp acted
    exact update_of_ne other _ _

theorem few_act {s' : State} {a : Act} (few : Lockfile.Few s.view)
    (alone : Lockfile.quiet s.view (.die a.pid) = true) (acted : act s a = some s') :
    Careful s a ∧ Lockfile.Few s'.view := by
  constructor
  · cases a with
    | exit p => exact few.careful alone
    | _ => trivial
  · refine few.kept alone fun q other => ?_
    exact congrArg Proc.lock (act_proc acted fun same => other (congrArg some same.symm))

/-- Process 2 reads the write lock of 1, which unlocks and exits; 3 takes it, then 2 finds 1 dead,
removes it and takes it. -/
def twoWriters : List Act :=
  [.wrlock 1] ++ runs 1 15 ++ [.wrlock 2] ++ runs 2 14 ++ [.wrunlock 1] ++ runs 1
    5 ++ [.exit 1,.wrlock 3] ++ runs 3 15 ++
    runs 2 12

end BitKeeper.Locking
