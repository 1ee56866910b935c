import BitKeeper.Lockfile.Exclusion

/-!
Read and write locks of a repository. A reader makes its file and then looks for a writer; a writer
takes the lock file, by the steps of `sccs_lockfile`, and then looks for readers.
-/

namespace BitKeeper.Locking

open Lockfile (Pid Lock)

/-- `WRITER_LOCK_DIR` with the lock file, and `READER_LOCK_DIR` with a file for each reader. -/
structure Repo where
  writer : Lockfile.Fs
  rdDir : Bool
  readers : List Pid

namespace Repo
variable (repo : Repo)

def mkdirReaders : Repo := { repo with rdDir := true }

def rmdirReaders : Repo := if repo.readers = [] then { repo with rdDir := false } else repo

def mkdirWriter : Repo := { repo with writer := { repo.writer with dir := true } }

def rmdirWriter : Repo :=
  if repo.writer.file = none ∧ repo.writer.uniqs = [] then
    { repo with writer := { repo.writer with dir := false } }
  else repo

def creat (p : Pid) : Repo :=
  if repo.rdDir then { repo with readers := repo.readers.insert p } else repo

def unlink (p : Pid) : Repo := { repo with readers := repo.readers.filter (fun r => r != p) }

/-- The pid in the write lock; a linked file never changes, so it may be read when opened. -/
def lockPid : Option Pid := repo.writer.file.bind repo.writer.content

end Repo

/-- The next call of a process; the number is the attempt, `down` marks the `wrunlock` of a
downgrade. -/
inductive Pc where
  | idle
  | rdExists (i : Nat)
  | rdMkdir (i : Nat)
  | rdAccess (i : Nat)
  | rdCreat (i : Nat)
  | rdCheck (i : Nat)
  | rdWriter (i : Nat)
  | rdUnlink (i : Nat)
  | rdRmdir (i : Nat)
  | wrExists (i : Nat)
  | wrMkdir (i : Nat)
  | wrAccess (i : Nat)
  | wrLock (i : Nat)
  | wrRmdir (i : Nat)
  | scan (i : Nat)
  | scanOpen (i : Nat) (todo : List Pid) (n : Nat) (rm : Bool)
  | scanFindpid (i : Nat) (r : Pid) (todo : List Pid) (n : Nat) (rm : Bool)
  | scanUnlink (i : Nat) (r : Pid) (todo : List Pid) (n : Nat)
  | scanRmdir (i : Nat) (n : Nat)
  | wrBack (i : Nat)
  | wrBackRmdir (i : Nat)
  | downOpen
  | downRead (pid : Option Pid)
  | downExists
  | downMkdir
  | downCreat
  | downCheck
  | unOpen (down : Bool)
  | unRead (down : Bool) (pid : Option Pid)
  | unLock (down : Bool) (error : Bool)
  | unRmdir (down : Bool)
  | rdUnlock
  deriving DecidableEq

structure Proc where
  pc : Pc
  lock : Lock
  rd : Bool
  wr : Bool

namespace Proc
variable (x : Proc)

def goto (pc : Pc) : Proc := { x with pc := pc }

/-- The loop of `repository_rdlock`. -/
def rdRetry (i : Nat) : Proc := x.goto (if i + 1 < 10 then .rdExists (i + 1) else .idle)

/-- The loop of `repository_wrlock`. -/
def wrRetry (i : Nat) : Proc := x.goto (if i + 1 < 10 then .wrExists (i + 1) else .idle)

/-- The end of `wrlock`, with the number of readers. -/
def scanned (i n : Nat) : Proc :=
  if n = 0 then { x with pc := .idle, wr := true } else
    { x with pc := .wrBack i, lock := .unlockUniq }

/-- The end of `wrunlock`. -/
def unlocked (down : Bool) : Proc := { x with pc := .idle, rd := x.rd || down }

variable (alive : Pid → Bool) (p : Pid) (repo : Repo)

/-- `sccs_lockfile` in `wrlock`. -/
def lockStep (i : Nat) : Option (Repo × Proc) :=
  (x.lock.step alive p repo.writer).map (fun r =>
    ({ repo with writer := r.1 },
      { x with lock := r.2,
               pc := if r.2 = .held then .scan i else if r.2 = .idle then .wrRmdir i else
               .wrLock i }))

/-- `sccs_unlockfile` in `wrlock`. -/
def backStep (i : Nat) : Option (Repo × Proc) :=
  (x.lock.step alive p repo.writer).map (fun r =>
    ({ repo with writer := r.1 },
      { x with lock := r.2, pc := if r.2 = .idle then .wrBackRmdir i else .wrBack i }))

/-- Is the file that `sccs_unlockfile` unlinks next missing? -/
def unlinkFails : Bool :=
  if x.lock = .unlockUniq then (repo.writer.uniq p).isNone else repo.writer.file.isNone

/-- `sccs_unlockfile` in `wrunlock`; the directory is removed if both files were there. -/
def unlockStep (down error : Bool) : Option (Repo × Proc) :=
  (x.lock.step alive p repo.writer).map (fun r =>
    ({ repo with writer := r.1 }, if r.2 = .idle then
        if error || x.unlinkFails p repo then unlocked { x with lock := r.2 } down
        else { x with lock := r.2, pc := .unRmdir down }
      else { x with lock := r.2, pc := .unLock down (error || x.unlinkFails p repo) }))

def step : Option (Repo × Proc) := match x.pc with
  | .idle => none
  -- rdlock
  | .rdExists i => some (repo, x.goto (if repo.rdDir then .rdAccess i else .rdMkdir i))
  | .rdMkdir i => some (repo.mkdirReaders, x.goto (.rdAccess i))
  | .rdAccess i => some (repo, if repo.rdDir then x.goto (.rdCreat i) else x.rdRetry i)
  | .rdCreat i => some (repo.creat p, x.goto (.rdCheck i))
  | .rdCheck i => some (repo, if p ∈ repo.readers then x.goto (.rdWriter i) else x.rdRetry i)
  | .rdWriter i =>
    some (repo, if repo.writer.file = none then { x with pc := .idle, rd := true } else
      x.goto (.rdUnlink i))
  | .rdUnlink i => some (repo.unlink p, x.goto (.rdRmdir i))
  | .rdRmdir i => some (repo.rmdirReaders, x.rdRetry i)
  -- wrlock
  | .wrExists i => some (repo, x.goto (if repo.writer.dir then .wrAccess i else .wrMkdir i))
  | .wrMkdir i => some (repo.mkdirWriter, x.goto (.wrAccess i))
  | .wrAccess i =>
    some (repo, if repo.writer.dir then { x with pc := .wrLock i, lock := Lockfile.sccs_lockfile 0 }
      else x.wrRetry i)
  | .wrLock i => x.lockStep alive p repo i
  | .wrRmdir i => some (repo.rmdirWriter, x.wrRetry i)
  -- repository_hasLocks(READER_LOCK_DIR)
  | .scan i => some (repo, x.goto (.scanOpen i (if repo.rdDir then repo.readers else []) 0 false))
  | .scanOpen i [] n rm => some (repo, if rm then x.goto (.scanRmdir i n) else x.scanned i n)
  | .scanOpen i (r :: todo) n rm =>
    some (repo,
      x.goto (if r ∈ repo.readers then .scanFindpid i r todo n rm else .scanOpen i todo (n + 1) rm))
  | .scanFindpid i r todo n rm =>
    some (repo, x.goto (if alive r then .scanOpen i todo (n + 1) rm else .scanUnlink i r todo n))
  | .scanUnlink i r todo n => some (repo.unlink r, x.goto (.scanOpen i todo n true))
  | .scanRmdir i n => some (repo.rmdirReaders, x.scanned i n)
  | .wrBack i => x.backStep alive p repo i
  | .wrBackRmdir i => some (repo.rmdirWriter, x.wrRetry i)
  -- repository_downgrade
  | .downOpen => some (repo, x.goto (.downRead repo.lockPid))
  | .downRead pid => some (repo, x.goto (if pid = some p then .downExists else .idle))
  | .downExists => some (repo, x.goto (if repo.rdDir then .downCreat else .downMkdir))
  | .downMkdir => some (repo.mkdirReaders, x.goto .downCreat)
  | .downCreat => some (repo.creat p, x.goto .downCheck)
  | .downCheck =>
    some (repo, if p ∈ repo.readers then { x with pc := .unOpen true, wr := false } else
      x.goto .idle)
  -- repository_wrunlock
  | .unOpen down => some (repo, x.goto (.unRead down repo.lockPid))
  | .unRead down pid =>
    some (repo, if pid = some p then { x with pc := .unLock down false, lock := .unlockUniq } else
      x.unlocked down)
  | .unLock down error => x.unlockStep alive p repo down error
  | .unRmdir down => some (repo.rmdirWriter, x.unlocked down)
  -- repository_rdunlock
  | .rdUnlock => some (repo.unlink p, x.goto .idle)

end Proc

/-! ### The system -/

structure State where
  repo : Repo
  proc : Pid → Proc
  alive : Pid → Bool

/-- The directories may be there or not. -/
def State.init (wrDir rdDir : Bool) : State where
  repo :=
    { writer := { dir := wrDir, file := none, uniqs := [], content := fun _ => none, fresh := 1 }
      rdDir := rdDir
      readers := [] }
  proc := fun _ => { pc := .idle, lock := .idle, rd := false, wr := false }
  alive := fun _ => true

inductive Act where
  | rdlock (p : Pid)
  | wrlock (p : Pid)
  | downgrade (p : Pid)
  | rdunlock (p : Pid)
  | wrunlock (p : Pid)
  | run (p : Pid)
  | exit (p : Pid)

def State.set (s : State) (p : Pid) (x : Proc) : State :=
  { s with proc := Function.update s.proc p x }

/-- No process asks for a lock it holds, or exits with one. -/
def act (s : State) : Act → Option State
  | .rdlock p =>
    if s.alive p ∧ (s.proc p).pc = .idle ∧ (s.proc p).rd = false then
      some (s.set p ((s.proc p).goto (.rdExists 0)))
    else none
  | .wrlock p =>
    if s.alive p ∧ (s.proc p).pc = .idle ∧ (s.proc p).wr = false then
      some (s.set p ((s.proc p).goto (.wrExists 0)))
    else none
  | .downgrade p =>
    if s.alive p ∧ (s.proc p).pc = .idle then some (s.set p ((s.proc p).goto .downOpen)) else none
  | .rdunlock p =>
    if s.alive p ∧ (s.proc p).pc = .idle then
      some (s.set p { s.proc p with pc := .rdUnlock, rd := false }) else none
  | .wrunlock p =>
    if s.alive p ∧ (s.proc p).pc = .idle then
      some (s.set p { s.proc p with pc := .unOpen false, wr := false }) else none
  | .run p =>
    if s.alive p then
      ((s.proc p).step s.alive p s.repo).map
        (fun r => { s with repo := r.1, proc := Function.update s.proc p r.2 })
    else none
  | .exit p =>
    if s.alive p ∧ (s.proc p).pc = .idle ∧ (s.proc p).rd = false ∧ (s.proc p).wr = false then
      some { s with alive := Function.update s.alive p false }
    else none

/-- The write lock file as it is seen by its own model. -/
def State.view (s : State) : Lockfile.State where
  fs := s.repo.writer
  lock := fun p => (s.proc p).lock
  alive := s.alive

end BitKeeper.Locking
