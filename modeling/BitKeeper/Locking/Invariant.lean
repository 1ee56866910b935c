import BitKeeper.Locking.Model

/-!
A reader's file is there from before it looks for a writer until it unlocks, so a writer that finds
no file has no reader, then and later.
-/

namespace BitKeeper.Locking

open Function
open Lockfile (Pid Lock)

def plain (wr : Bool) : Lock := if wr then .held else .idle

def Proc.reads (x : Proc) : Bool := x.rd || match x.pc with
    | .unOpen down => down
    | .unRead down _ => down
    | .unLock down _ => down
    | .unRmdir down => down
    | _ => false

def Proc.mayRead (x : Proc) : Bool := x.reads || match x.pc with
    | .rdCheck _ => true
    | .rdWriter _ => true
    | .rdUnlink _ => true
    | .downCheck => true
    | .rdUnlock => true
    | _ => false

def ProcOk (readers : List Pid) (p : Pid) (x : Proc) : Prop := match x.pc with
  | .idle => x.lock = plain x.wr
  | .rdExists _ => x.lock = plain x.wr ∧ x.rd = false
  | .rdMkdir _ => x.lock = plain x.wr ∧ x.rd = false
  | .rdAccess _ => x.lock = plain x.wr ∧ x.rd = false
  | .rdCreat _ => x.lock = plain x.wr ∧ x.rd = false
  | .rdCheck _ => x.lock = plain x.wr ∧ x.rd = false
  | .rdWriter _ => (x.lock = plain x.wr ∧ x.rd = false) ∧ p ∈ readers
  | .rdUnlink _ => x.lock = plain x.wr ∧ x.rd = false
  | .rdRmdir _ => x.lock = plain x.wr ∧ x.rd = false
  | .wrExists _ => x.wr = false ∧ x.lock = .idle
  | .wrMkdir _ => x.wr = false ∧ x.lock = .idle
  | .wrAccess _ => x.wr = false ∧ x.lock = .idle
  | .wrLock _ => x.wr = false ∧ ∃ c, x.lock = .calling c
  | .wrRmdir _ => x.wr = false ∧ x.lock = .idle
  | .scan _ => x.wr = false ∧ x.lock = .held
  | .scanOpen _ _ _ _ => x.wr = false ∧ x.lock = .held
  | .scanFindpid _ _ _ _ _ => x.wr = false ∧ x.lock = .held
  | .scanUnlink _ _ _ _ => x.wr = false ∧ x.lock = .held
  | .scanRmdir _ _ => x.wr = false ∧ x.lock = .held
  | .wrBack _ => x.wr = false ∧ (x.lock = .unlockUniq ∨ x.lock = .unlockFile)
  | .wrBackRmdir _ => x.wr = false ∧ x.lock = .idle
  | .downOpen => x.lock = plain x.wr
  | .downRead pid => x.lock = plain x.wr ∧ (pid = some p → x.wr = true)
  | .downExists => x.wr = true ∧ x.lock = .held
  | .downMkdir => x.wr = true ∧ x.lock = .held
  | .downCreat => x.wr = true ∧ x.lock = .held
  | .downCheck => x.wr = true ∧ x.lock = .held
  | .unOpen _ => x.wr = false ∧ (x.lock = .held ∨ x.lock = .idle)
  | .unRead _ pid =>
    x.wr = false ∧ ((pid = some p ∧ x.lock = .held) ∨ (pid ≠ some p ∧ x.lock = .idle))
  | .unLock _ _ => x.wr = false ∧ (x.lock = .unlockUniq ∨ x.lock = .unlockFile)
  | .unRmdir _ => x.wr = false ∧ x.lock = .idle
  | .rdUnlock => x.lock = plain x.wr ∧ x.rd = false

def Sees (x : Proc) (r : Pid) : Prop := match x.pc with
  | .scanOpen _ todo n _ => r ∈ todo ∨ 0 < n
  | .scanFindpid _ r' todo n _ => r = r' ∨ r ∈ todo ∨ 0 < n
  | .scanUnlink _ _ todo n => r ∈ todo ∨ 0 < n
  | .scanRmdir _ n => 0 < n
  | _ => x.wr = false

def Proc.removes (x : Proc) : Option Pid := match x.pc with
  | .scanUnlink _ r _ _ => some r
  | _ => none

structure Inv (s : State) : Prop where
  dead : ∀ p, s.alive p = false → (s.proc p).pc = .idle ∧ (s.proc p).rd = false ∧
    (s.proc p).wr = false
  procs : ∀ p, ProcOk s.repo.readers p (s.proc p)
  files : ∀ p ∈ s.repo.readers, (s.proc p).mayRead = true
  reads : ∀ p, (s.proc p).reads = true → p ∈ s.repo.readers
  dir : s.repo.rdDir = false → s.repo.readers = []
  sees : ∀ w r, r ≠ w → (s.proc r).reads = true → Sees (s.proc w) r
  removes : ∀ w r, (s.proc w).removes = some r → s.alive r = false

section
variable {readers readers' : List Pid} {p : Pid} {x : Proc}

theorem sees_of_lock (ok : ProcOk readers p x) (free : x.lock ≠ .held) (r : Pid) : Sees x r := by
  unfold ProcOk at ok
  unfold Sees
  have notWriter : x.lock = plain x.wr → x.wr = false := by
    intro is
    cases wr : x.wr with
    | false => rfl
    | true =>
      rw [wr] at is
      exact absurd is free
  cases at_ : x.pc with
  | idle | downOpen =>
    rw [at_] at ok
    exact notWriter ok
  | rdWriter i =>
    rw [at_] at ok
    exact notWriter ok.1.1
  | rdExists i | rdMkdir i | rdAccess i | rdCreat i | rdCheck i | rdUnlink i | rdRmdir i | rdUnlock
  | downRead pid =>
    rw [at_] at ok
    exact notWriter ok.1
  | scan i | scanOpen i todo n rm | scanFindpid i r todo n rm | scanUnlink i r todo n
  | scanRmdir i n | downExists
  | downMkdir | downCreat | downCheck =>
    rw [at_] at ok
    exact absurd ok.2 free
  | _ =>
    rw [at_] at ok
    exact ok.1

theorem ProcOk.frame (ok : ProcOk readers p x) (kept : p ∈ readers → p ∈ readers') :
    ProcOk readers' p x := by
  unfold ProcOk at ok ⊢
  cases at_ : x.pc with
  | rdWriter i =>
    rw [at_] at ok
    exact ⟨ok.1,kept ok.2⟩
  | _ =>
    rwa [at_] at ok

end

structure Stepped (s : State) (p : Pid) (repo : Repo) (x : Proc) : Prop where
  proc : ProcOk repo.readers p x
  fewer : ∀ q, q ≠ p → q ∈ repo.readers → q ∈ s.repo.readers
  keeps : ∀ q, q ≠ p → s.alive q = true → q ∈ s.repo.readers → q ∈ repo.readers
  files : p ∈ repo.readers → x.mayRead = true
  reads : x.reads = true → p ∈ repo.readers
  dir : repo.rdDir = false → repo.readers = []
  sees : ∀ r, r ≠ p → (s.proc r).reads = true → Sees x r
  seen : x.reads = true → (s.proc p).reads = true ∨ ∀ w, w ≠ p → (s.proc w).lock ≠ .held
  removes : ∀ r, x.removes = some r → s.alive r = false

theorem Inv.reader_alive {s : State} (inv : Inv s) {r : Pid} (reads : (s.proc r).reads = true) :
    s.alive r = true := by
  by_contra gone
  obtain ⟨idle,notReader,_⟩ := inv.dead r (Bool.not_eq_true _ ▸ gone)
  unfold Proc.reads at reads
  rw [notReader,idle] at reads
  cases reads

theorem Inv.stepped {s : State} (inv : Inv s) {p : Pid} {repo : Repo} {x : Proc}
    (acts : s.alive p = true) (stepped : Stepped s p repo x) :
    Inv { s with repo := repo, proc := update s.proc p x } := by
  refine ⟨?_,?_,?_,?_,stepped.dir,?_,?_⟩
  · intro q gone
    have other : q ≠ p := by
      intro same
      rw [same,acts] at gone
      cases gone
    dsimp only
    rw [update_of_ne other]
    exact inv.dead q gone
  · intro q
    dsimp only
    by_cases same : q = p
    · rw [same,update_self]
      exact stepped.proc
    rw [update_of_ne same]
    have ok := inv.procs q
    cases lives : s.alive q with
    | true => exact ok.frame (stepped.keeps q same lives)
    | false =>
      obtain ⟨idle,_,_⟩ := inv.dead q lives
      unfold ProcOk at ok ⊢
      rw [idle] at ok ⊢
      exact ok
  · intro q file
    dsimp only
    by_cases same : q = p
    · subst same
      rw [update_self]
      exact stepped.files file
    · rw [update_of_ne same]
      exact inv.files q (stepped.fewer q same file)
  · intro q reads
    dsimp only at reads ⊢
    by_cases same : q = p
    · subst same
      rw [update_self] at reads
      exact stepped.reads reads
    · rw [update_of_ne same] at reads
      exact stepped.keeps q same (inv.reader_alive reads) (inv.reads q reads)
  · intro w r other reads
    dsimp only at reads ⊢
    by_cases writer : w = p
    · subst writer
      rw [update_of_ne other] at reads
      rw [update_self]
      exact stepped.sees r other reads
    rw [update_of_ne writer]
    by_cases reader : r = p
    · subst reader
      rw [update_self] at reads
      rcases stepped.seen reads with before | free
      · exact inv.sees w r other before
      · exact sees_of_lock (inv.procs w) (free w writer) r
    · rw [update_of_ne reader] at reads
      exact inv.sees w r other reads
  · intro w r removes
    dsimp only at removes
    by_cases same : w = p
    · rw [same,update_self] at removes
      exact stepped.removes r removes
    · rw [update_of_ne same] at removes
      exact inv.removes w r removes

end BitKeeper.Locking
