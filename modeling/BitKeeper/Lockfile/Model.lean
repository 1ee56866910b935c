import Mathlib.Algebra.Ring.Int.Defs
import BitKeeper.Lib.Runs

/-!
`sccs_lockfile`: every process links a file of its own to the lock file and looks whether it won.
Each file system call is one step; between two of them any other process may run, or die.
-/

namespace BitKeeper.Lockfile

open Function

abbrev Pid := Nat

abbrev Ino := Nat

/-- The directory of the lock file; `content` is the pid, none while empty, `fresh` the next inode. -/
structure Fs where
  dir : Bool
  file : Option Ino
  uniqs : List (Pid × Ino)
  content : Ino → Option Pid
  fresh : Ino

namespace Fs
variable (fs : Fs)

def uniq (p : Pid) : Option Ino := fs.uniqs.lookup p

def unlinkUniq (p : Pid) : Fs := { fs with uniqs := fs.uniqs.filter (fun e => e.1 != p) }

def unlinkFile : Fs := { fs with file := none }

def openUniq (p : Pid) : Option Fs :=
  if fs.dir ∧ fs.uniq p = none then
    some { fs with uniqs := (p, fs.fresh) :: fs.uniqs, fresh := fs.fresh + 1 } else none

def write (fd : Ino) (p : Pid) : Fs := { fs with content := update fs.content fd (some p) }

def link (p : Pid) : Fs := if fs.file = none then { fs with file := fs.uniq p } else fs

/-- Both `ino` and `links` are zero for a missing file. -/
def links : Option Ino → Nat
  | none => 0
  | some i => fs.uniqs.countP (fun e => e.2 == i) + if fs.file = some i then 1 else 0

end Fs

/-! ### A call -/

/-- The next system call in `sccs_stalelock`. -/
inductive Stale where
  | open_
  | read (fd : Ino)
  | findpid (pid : Pid)
  | unlinkUniq (pid : Pid)
  | unlinkFile (pid : Pid)
  deriving DecidableEq

/-- The next system call in `sccs_lockfile`. -/
inductive Pc where
  | access
  | unlinkUniq
  | openUniq
  | write (fd : Ino)
  | link
  | cacheUniq
  | cacheFile (uniq : Option Ino)
  | cacheLinksUniq
  | cacheLinksFile
  | wonLinks
  | wonUniq
  | wonFile (uniq : Option Ino)
  | nfsLinks
  | nfsUniq
  | nfsFile (uniq : Option Ino)
  | nfsUnlink
  | exists_
  | stale (last : Bool) (next : Stale)
  | giveUp
  deriving DecidableEq

structure Call where
  pc : Pc
  waitsecs : Int
  waited : Nat
  uslp : Nat
  deriving DecidableEq

/-- What a process has to do with the lock file. -/
inductive Lock where
  | idle
  | calling (c : Call)
  | held
  | unlockUniq
  | unlockFile
  deriving DecidableEq

def sccs_lockfile (waitsecs : Int) : Lock :=
  .calling { pc := .access, waitsecs := waitsecs, waited := 0, uslp := 500 }

namespace Call
variable (c : Call)

def goto (pc : Pc) : Lock := .calling { c with pc := pc }

def wait : Lock :=
  if c.waitsecs = 0 then c.goto .giveUp
  else if c.waitsecs ≠ -1 ∧ c.waitsecs % 2 ^ 64 ≤ (c.waited / 1000000 : Nat) then
    c.goto (.stale true .open_)
  else
    .calling { c with pc := .link, waited := c.waited + c.uslp,
                      uslp := if c.uslp < 100000 then c.uslp + 25000 else c.uslp }

def notStale (last : Bool) : Lock := if last then c.goto .giveUp else c.wait

variable (alive : Pid → Bool) (p : Pid) (fs : Fs)

/-- `sccs_stalelock(file, 1)`. -/
def staleStep (last : Bool) : Stale → Fs × Lock
  | .open_ =>
    match fs.file with
    | none => (fs, c.notStale last)
    | some i => (fs, c.goto (.stale last (.read i)))
  | .read fd =>
    match fs.content fd with
    | none => (fs, c.notStale last)
    | some pid => (fs, c.goto (.stale last (.findpid pid)))
  | .findpid pid =>
    (fs, if alive pid then c.notStale last else c.goto (.stale last (.unlinkUniq pid)))
  | .unlinkUniq pid => (fs.unlinkUniq pid, c.goto (.stale last (.unlinkFile pid)))
  | .unlinkFile _ => (fs.unlinkFile, c.goto .link)

def step : Fs × Lock := match c.pc with
  | .access => (fs, if fs.dir then c.goto .unlinkUniq else .idle)
  | .unlinkUniq => (fs.unlinkUniq p, c.goto .openUniq)
  | .openUniq =>
    match fs.openUniq p with
    | none => (fs, .idle)
    | some fs' => (fs', c.goto (.write fs.fresh))
  | .write fd => (fs.write fd p, c.goto .link)
  | .link => (fs.link p, c.goto .cacheUniq)
  -- while ((ino(uniq) == ino(file)) && (links(uniq) == 1) && (links(file) == 1))
  | .cacheUniq => (fs, c.goto (.cacheFile (fs.uniq p)))
  | .cacheFile uniq => (fs, c.goto (if uniq = fs.file then .cacheLinksUniq else .wonLinks))
  | .cacheLinksUniq => (fs, c.goto (if fs.links (fs.uniq p) = 1 then .cacheLinksFile else .wonLinks))
  | .cacheLinksFile => (fs, c.goto (if fs.links fs.file = 1 then .cacheUniq else .wonLinks))
  | .wonLinks => (fs, c.goto (if fs.links (fs.uniq p) = 2 then .wonUniq else .nfsLinks))
  | .wonUniq => (fs, c.goto (.wonFile (fs.uniq p)))
  | .wonFile uniq => (fs, if uniq = fs.file then .held else c.goto .nfsLinks)
  | .nfsLinks => (fs, c.goto (if 2 < fs.links (fs.uniq p) then .nfsUniq else .exists_))
  | .nfsUniq => (fs, c.goto (.nfsFile (fs.uniq p)))
  | .nfsFile uniq => (fs, c.goto (if uniq = fs.file then .nfsUnlink else .unlinkUniq))
  | .nfsUnlink => (fs.unlinkFile, c.goto .unlinkUniq)
  | .exists_ =>
    (fs, if fs.uniq p = none then c.goto .giveUp
      else if c.waited = 0 then c.goto (.stale false .open_) else c.wait)
  | .stale last next => c.staleStep alive fs last next
  | .giveUp => (fs.unlinkUniq p, .idle)

end Call

def Lock.step (alive : Pid → Bool) (p : Pid) (fs : Fs) : Lock → Option (Fs × Lock)
  | .idle => none
  | .calling c => some (c.step alive p fs)
  | .held => none
  | .unlockUniq => some (fs.unlinkUniq p, .unlockFile)
  | .unlockFile => some (fs.unlinkFile, .idle)

/-! ### The system -/

structure State where
  fs : Fs
  lock : Pid → Lock
  alive : Pid → Bool

def State.init : State where
  fs := { dir := true, file := none, uniqs := [], content := fun _ => none, fresh := 1 }
  lock := fun _ => .idle
  alive := fun _ => true

/-- The directory may be made and removed by others. -/
inductive Act where
  | call (p : Pid) (waitsecs : Int)
  | run (p : Pid)
  | unlock (p : Pid)
  | die (p : Pid)
  | mkdir
  | rmdir

def act (s : State) : Act → Option State
  | .call p waitsecs =>
    if s.alive p ∧ s.lock p = .idle then
      some { s with lock := update s.lock p (sccs_lockfile waitsecs) }
    else none
  | .run p =>
    if s.alive p then
      ((s.lock p).step s.alive p s.fs).map
        (fun r => { s with fs := r.1, lock := update s.lock p r.2 })
    else none
  | .unlock p =>
    if s.alive p ∧ s.lock p = .held then some { s with lock := update s.lock p .unlockUniq } else none
  | .die p => if s.alive p then some { s with alive := update s.alive p false } else none
  | .mkdir => some { s with fs := { s.fs with dir := true } }
  | .rmdir =>
    if s.fs.file = none ∧ s.fs.uniqs = [] then some { s with fs := { s.fs with dir := false } } else
      none

/-- Between a successful return of `sccs_lockfile` and `sccs_unlockfile`. -/
def Holds (s : State) (p : Pid) : Prop := s.alive p = true ∧ s.lock p = .held

/-- The process whose lock is looked at in `sccs_stalelock`. -/
def target (fs : Fs) : Lock → Option Pid
  | .calling c =>
    match c.pc with
    | .stale _ (.read fd) => fs.content fd
    | .stale _ (.findpid pid) => some pid
    | .stale _ (.unlinkUniq pid) => some pid
    | .stale _ (.unlinkFile pid) => some pid
    | _ => none
  | _ => none

end BitKeeper.Lockfile
