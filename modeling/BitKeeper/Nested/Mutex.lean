import BitKeeper.Lockfile.Exclusion

/-!
The mutex of the nested locks is a lock file, taken and released by the steps of its own model. All
else that a call does may fail or not.
-/

namespace BitKeeper.Nested

open Function Option
open Lockfile (Pid Lock Owns Holds Moves)

/-- What may end a call, besides the mutex. -/
inductive Check where
  | proj_product
  | nested_mine
  | repository_lock
  | nested_lockers
  | nested_isStale
  | Fprintf
  | lockResync
  | unlink
  deriving DecidableEq

/-- A call that fails goes to `nlock_release` or returns. -/
inductive Instr where
  | check (what : Check) (releases : Bool)
  | acquire (releases : Bool)
  | release
  deriving DecidableEq

def nested_wrlock : List Instr :=
  [.check .proj_product false,.check .repository_lock false,.acquire true,.check .nested_lockers true,
    .check .Fprintf true,.check .lockResync true,.release]

def nested_rdlock : List Instr :=
  [.check .proj_product false,.check .repository_lock false,.acquire false,
    .check .nested_isStale true,.check .Fprintf true,.release]

/-- A failed `unlink` goes to `out`, behind the release. -/
def nested_unlock : List Instr :=
  [.check .nested_mine false,.check .proj_product false,.check .repository_lock false,.acquire false,
    .check .unlink false,.release]

def nested_forceUnlock : List Instr := [.check .proj_product false,.acquire false,.release]

structure State where
  mutex : Lockfile.State
  todo : Pid → List Instr

/-- What a process does next about the mutex in `nlock_acquire` or `nlock_release`. -/
def deed (p : Pid) : Lock → Lockfile.Act
  | .idle => .call p 120
  | .held => .unlock p
  | _ => .run p

namespace State

def init : State := ⟨Lockfile.State.init,fun _ => []⟩

variable (s : State) (p : Pid)

/-- The call goes on when `sccs_lockfile` or `sccs_unlockfile` returns; an unlink may fail. -/
def lockStep (ok releases : Bool) (rest : List Instr) : Option State :=
  (Lockfile.act s.mutex (deed p (s.mutex.lock p))).map fun mutex =>
    { mutex := { mutex with fs := if ok then mutex.fs else s.mutex.fs }
      todo := update s.todo p (match mutex.lock p with
        | .held => rest
        | .idle => if releases then [.release] else []
        | _ => s.todo p) }

def step (ok : Bool) : Option State :=
  match s.todo p with
  | [] => none
  | .check _ releases :: rest =>
    some { s with todo := update s.todo p (if ok then rest else if releases then [.release] else []) }
  | .acquire releases :: rest => s.lockStep p true releases rest
  | .release :: rest =>
    -- `sccs_unlockfile` unlinks the mutex file whoever made it
    if s.mutex.lock p = .idle then
      some { mutex := { s.mutex with fs := if ok then s.mutex.fs.unlinkFile else s.mutex.fs }
             todo := update s.todo p rest }
    else s.lockStep p ok false rest

end State

/-- `other` is the death of a process, or is about the directory of the mutex. -/
inductive Act where
  | call (p : Pid) (code : List Instr)
  | run (p : Pid) (ok : Bool)
  | other (a : Lockfile.Act)

def calls : List (List Instr) := [nested_wrlock,nested_rdlock,nested_unlock,nested_forceUnlock]

def act (s : State) : Act → Option State
  | .call p code =>
    -- nothing is said about calls of a process that has kept the mutex
    if s.mutex.alive p ∧ s.todo p = [] ∧ s.mutex.lock p = .idle ∧ code ∈ calls then
      some { s with todo := update s.todo p code } else none
  | .run p ok => if s.mutex.alive p then s.step p ok else none
  | .other a => match a with
    | .die _ | .mkdir | .rmdir => (Lockfile.act s.mutex a).map fun mutex => { s with mutex := mutex }
    | _ => none

/-- A `nested_wrlock` that gave up finds no mutex file, and neither the unlink of `nested_unlock` nor
one of `nlock_release` fails. -/
def Careful (s : State) : Act → Prop
  | .call _ _ => True
  | .run p ok =>
    Lockfile.Careful s.mutex (deed p (s.mutex.lock p)) ∧
      (s.todo p = [.check .unlink false,.release] → ok = true) ∧
      (s.todo p = [.release] → ok = true ∧ (s.mutex.lock p = .idle → s.mutex.fs.file = none))
  | .other a => Lockfile.Careful s.mutex a

def Fits : List Instr → Lock → Prop
  | [], lock => lock = .idle
  | .check what releases :: rest, lock =>
    (lock = .idle ∧ releases = false ∨
      lock = .held ∧ (releases = true ∨ what = .unlink ∧ rest = [.release])) ∧ Fits rest lock
  | .acquire _ :: rest, lock => (lock = .idle ∨ ∃ c, lock = .calling c) ∧ Fits rest .held
  | .release :: rest, lock => rest = [] ∧ ∀ c, lock ≠ .calling c

def Inv (s : State) : Prop := ∀ p, Fits (s.todo p) (s.mutex.lock p)

section
variable {s s' : State} {p : Pid} {ok : Bool} {mutex : Lockfile.State} {todo : List Instr}

theorem Inv.moved (inv : Inv s) (others : ∀ q, q ≠ p → mutex.lock q = s.mutex.lock q)
    (fits : Fits todo (mutex.lock p)) : Inv ⟨mutex,update s.todo p todo⟩ := by
  intro q
  dsimp only
  by_cases same : q = p
  · subst same
    rwa [update_self]
  · rw [update_of_ne same,others q same]
    exact inv q

def Next : Lock → Lock → Prop
  | .idle, lock => ∃ c, lock = .calling c
  | .calling _, lock => lock = .idle ∨ lock = .held ∨ ∃ c, lock = .calling c
  | .held, lock => lock = .unlockUniq
  | .unlockUniq, lock => lock = .unlockFile
  | .unlockFile, lock => lock = .idle

private theorem deed_pid (lock : Lock) : (deed p lock).pid = some p := by cases lock <;> rfl

private theorem deed_next (acted : Lockfile.act s.mutex (deed p (s.mutex.lock p)) = some mutex) :
    Next (s.mutex.lock p) (mutex.lock p) ∧ ∀ q, q ≠ p → mutex.lock q = s.mutex.lock q := by
  refine ⟨?_,fun q other => Lockfile.act_lock acted fun same => other ?_⟩
  · cases lock : s.mutex.lock p with
    | idle | held =>
      rw [lock] at acted
      obtain ⟨_,⟨⟩⟩ := ite_none_right_eq_some.mp acted
      dsimp only
      rw [update_self]
      first | exact ⟨_,rfl⟩ | rfl
    | _ =>
      rw [lock] at acted
      obtain ⟨_,went⟩ := ite_none_right_eq_some.mp acted
      rw [lock] at went
      cases went
      dsimp only
      rw [update_self]
      first | exact Lockfile.step_shape _ | rfl
  · exact some.inj (same.symm.trans (deed_pid _))

private theorem step_lock {q : Pid} (other : q ≠ p) (stepped : s.step p ok = some s') :
    s'.mutex.lock q = s.mutex.lock q := by
  have locked : ∀ ok releases rest, s.lockStep p ok releases rest = some s' →
      s'.mutex.lock q = s.mutex.lock q := by
    intro ok releases rest went
    obtain ⟨mutex,acted,⟨⟩⟩ := map_eq_some_iff.mp went
    exact (deed_next acted).2 q other
  unfold State.step at stepped
  split at stepped
  · cases stepped
  · cases stepped
    rfl
  · exact locked _ _ _ stepped
  · split at stepped
    · cases stepped
      rfl
    · exact locked _ _ _ stepped

theorem Inv.lockStep (inv : Inv s) {releases : Bool} {rest : List Instr}
    (waits : Lockfile.Careful s.mutex (deed p (s.mutex.lock p)))
    (stepped : s.lockStep p true releases rest = some s')
    (fits : ∀ lock, Next (s.mutex.lock p) lock → Fits (match lock with
      | .held => rest
      | .idle => if releases then [.release] else []
      | _ => s.todo p) lock) : Inv s' ∧ Moves s.mutex s'.mutex := by
  obtain ⟨mutex,acted,⟨⟩⟩ := map_eq_some_iff.mp stepped
  obtain ⟨next,others⟩ := deed_next acted
  exact ⟨inv.moved others (fits _ next),.inr ⟨_,waits,acted⟩⟩

theorem Inv.step (inv : Inv s) (careful : Careful s (.run p ok)) (stepped : s.step p ok = some s') :
    Inv s' ∧ Moves s.mutex s'.mutex := by
  obtain ⟨waits,unlinks,releases⟩ := careful
  have fits := inv p
  unfold State.step at stepped
  cases at_ : s.todo p with
  | nil =>
    rw [at_] at stepped
    cases stepped
  | cons instr rest =>
    rw [at_] at stepped fits
    cases instr with
    | check what early =>
      cases stepped
      refine ⟨inv.moved (fun _ _ => rfl) ?_,.inl rfl⟩
      cases ok with
      | true => exact fits.2
      | false =>
        rcases fits.1 with ⟨idle,rfl⟩ | ⟨held,rfl | ⟨rfl,rfl⟩⟩
        · exact idle
        · exact ⟨rfl,fun c is => by cases held.symm.trans is⟩
        · cases early with
          | true => exact fits.2
          | false => cases unlinks at_
    | acquire early =>
      refine inv.lockStep waits stepped fun lock next => ?_
      have shape : lock = .idle ∨ lock = .held ∨ ∃ c, lock = .calling c := by
        rcases fits.1 with idle | ⟨c,calling⟩
        · rw [idle] at next
          exact .inr (.inr next)
        · rwa [calling] at next
      rcases shape with rfl | rfl | ⟨c,rfl⟩
      · cases early with
        | true => exact ⟨rfl,nofun⟩
        | false => rfl
      · exact fits.2
      · dsimp only
        rw [at_]
        exact ⟨.inr ⟨c,rfl⟩,fits.2⟩
    | release =>
      obtain ⟨rfl,away⟩ := fits
      obtain ⟨rfl,free⟩ := releases at_
      dsimp only at stepped
      split at stepped
      next idle =>
        cases stepped
        refine ⟨inv.moved (fun _ _ => rfl) idle,.inl ?_⟩
        unfold Lockfile.Fs.unlinkFile
        rw [if_pos rfl,← free idle]
      next busy =>
        refine inv.lockStep waits stepped fun lock next => ?_
        cases before : s.mutex.lock p with
        | idle => exact absurd before busy
        | calling c => exact absurd before (away c)
        | held | unlockUniq =>
          rw [before] at next
          cases next
          dsimp only
          rw [at_]
          exact ⟨rfl,nofun⟩
        | unlockFile =>
          rw [before] at next
          cases next
          rfl

private theorem calls_fit : ∀ code ∈ calls, Fits code .idle := by
  simp [calls,nested_wrlock,nested_rdlock,nested_unlock,nested_forceUnlock,Fits]

theorem Inv.act {a : Act} (inv : Inv s) (careful : Careful s a) (acted : act s a = some s') :
    Inv s' ∧ Moves s.mutex s'.mutex := by
  cases a with
  | call p code =>
    obtain ⟨⟨_,_,idle,listed⟩,⟨⟩⟩ := ite_none_right_eq_some.mp acted
    refine ⟨inv.moved (fun _ _ => rfl) ?_,.inl rfl⟩
    rw [idle]
    exact calls_fit code listed
  | run p ok =>
    obtain ⟨_,stepped⟩ := ite_none_right_eq_some.mp acted
    exact inv.step careful stepped
  | other a =>
    have careful : Lockfile.Careful s.mutex a := careful
    cases a with
    | call _ _ | run _ | unlock _ => cases acted
    | mkdir =>
      cases acted
      exact ⟨inv,.inr ⟨_,careful,rfl⟩⟩
    | die _ | rmdir =>
      obtain ⟨mutex,did,⟨⟩⟩ := map_eq_some_iff.mp acted
      obtain ⟨_,⟨⟩⟩ := ite_none_right_eq_some.mp did
      exact ⟨inv,.inr ⟨_,careful,did⟩⟩

end

/-- In careful runs no call returns with the mutex, and whoever has got it has it still. -/
theorem mutex_released {s : State} (reaches : Runs.Reaches act Careful State.init s) {p : Pid}
    (lives : s.mutex.alive p = true) :
    (s.todo p = [] → ¬ Owns s.mutex.fs p) ∧ (Holds s.mutex p → Owns s.mutex.fs p) := by
  obtain ⟨inv,mutex⟩ : Inv s ∧
      Runs.Reaches Lockfile.act Lockfile.Careful Lockfile.State.init s.mutex := by
    clear lives
    induction reaches with
    | start => exact ⟨fun _ => rfl,.start⟩
    | step _ careful acted ih =>
      obtain ⟨kept,moves⟩ := ih.1.act careful acted
      exact ⟨kept,ih.2.moves moves⟩
  have locks := Lockfile.inv_of_reaches mutex
  refine ⟨fun done => ?_,fun holds => holds.owns locks⟩
  have ok := locks.locks p (.inl lives)
  have fits := inv p
  rw [done] at fits
  rw [show s.mutex.lock p = .idle from fits] at ok
  exact ok.2

def runs (p : Pid) (n : Nat) : List Act := List.replicate n (.run p true)

/-- Nothing fails, and the other process does not look at the mutex. -/
def quiet (s : State) : Act → Bool
  | .run p ok => ok ∧ (s.todo p = [.release] → s.mutex.lock p ≠ .idle) ∧
      Lockfile.quiet s.mutex (deed p (s.mutex.lock p))
  | .call _ _ => true
  | .other _ => false

private theorem quiet_careful {s s' : State} {a : Act} (few : Lockfile.Few s.mutex)
    (alone : quiet s a = true) (acted : act s a = some s') :
    Careful s a ∧ Lockfile.Few s'.mutex := by
  cases a with
  | call p code =>
    obtain ⟨_,⟨⟩⟩ := ite_none_right_eq_some.mp acted
    exact ⟨trivial,few⟩
  | run p ok =>
    obtain ⟨rfl,owner,alone⟩ := of_decide_eq_true alone
    obtain ⟨_,stepped⟩ := ite_none_right_eq_some.mp acted
    refine ⟨⟨few.careful alone,fun _ => rfl,fun last => ⟨rfl,fun idle => absurd idle (owner last)⟩⟩,
      few.kept alone fun q far => step_lock ?_ stepped⟩
    rintro rfl
    exact far (deed_pid _)
  | other a => cases alone

/-- Process 2 waits in `nested_wrlock` for the mutex of 1, which is in `nested_forceUnlock`. -/
theorem mutex_released_waited :
    ∃ s, Runs.Reaches act Careful State.init s ∧ s.todo 1 = [] ∧ ¬ Owns s.mutex.fs 1 ∧
      Holds s.mutex 2 ∧ Owns s.mutex.fs 2 := by
  have ends : (Runs.after (fun s a => if quiet s a then act s a else none) State.init
      ([.call 1 nested_forceUnlock] ++ runs 1 13 ++ [.call 2 nested_wrlock] ++ runs 2 16 ++
        runs 1 3 ++ runs 2 7)).map (fun s => (s.mutex.alive 1, s.todo 1, s.mutex.alive 2,
        s.mutex.lock 2)) = some (true, [], true, .held) := by decide +kernel
  obtain ⟨s,ran,seen⟩ := map_eq_some_iff.mp ends
  injection seen with lives seen
  injection seen with done seen
  have reaches : Runs.Reaches act Careful State.init s := by
    refine .after .start _ ran (P := fun s => Lockfile.Few s.mutex) (fun _ _ _ => rfl) ?_
    intro s a s' few acted
    obtain ⟨alone,did⟩ := ite_none_right_eq_some.mp acted
    exact ⟨did,quiet_careful few alone did⟩
  have holds : Holds s.mutex 2 := Prod.mk.inj seen
  exact ⟨s,reaches,done,(mutex_released reaches lives).1 done,holds,
    (mutex_released reaches holds.1).2 holds⟩

/-- The unlink of `nested_unlock` fails. -/
theorem mutex_not_released :
    ∃ s, Runs.Reaches act (fun _ _ => True) State.init s ∧ s.mutex.alive 1 = true ∧ s.todo 1 = [] ∧
      Owns s.mutex.fs 1 := by
  have ends : (Runs.after act State.init ([.call 1 nested_unlock] ++ runs 1 15 ++ [.run 1 false])).map
      (fun s => (s.mutex.alive 1, s.todo 1, s.mutex.fs.file, s.mutex.fs.content 1)) =
        some (true, [], some 1, some 1) := by decide +kernel
  obtain ⟨s,ran,seen⟩ := map_eq_some_iff.mp ends
  injection seen with lives seen
  injection seen with done seen
  injection seen with file content
  exact ⟨s,.after .start _ ran trivial fun _ _ _ _ did => ⟨did,trivial,trivial⟩,lives,done,1,file,
    content⟩

end BitKeeper.Nested
