import BitKeeper.Locking.Invariant

/-!
The steps of the five operations, one by one: what they leave of the reader
files, and which call of the lock file model they are.
-/

namespace BitKeeper.Locking

open List Bool
open Lockfile (Pid Lock)

structure Known (s : State) (p : Pid) (x : Proc) : Prop where
  proc : ProcOk s.repo.readers p x
  files : p ∈ s.repo.readers → x.mayRead = true
  reads : x.reads = true → p ∈ s.repo.readers
  sees : ∀ r, r ≠ p → (s.proc r).reads = true → Sees x r
  same : x.reads = (s.proc p).reads
  removes : ∀ r, x.removes = some r → s.alive r = false

theorem Inv.known {s : State} (inv : Inv s) (p : Pid) : Known s p (s.proc p) :=
  ⟨inv.procs p,inv.files p,inv.reads p,fun r other reads => inv.sees p r other reads, rfl,
    inv.removes p⟩

section
variable {s : State} {p : Pid} {x x' : Proc} {repo : Repo}

theorem Known.stay (known : Known s p x) (readers : repo.readers = s.repo.readers)
    (dir : repo.rdDir = false → s.repo.readers = []) (proc : ProcOk s.repo.readers p x')
    (files : x.mayRead = true → p ∈ s.repo.readers → x'.mayRead = true)
    (reads : x'.reads = true → x.reads = true)
    (sees : ∀ r, r ≠ p → (s.proc r).reads = true → Sees x' r)
    (removes : ∀ r, x'.removes = some r → s.alive r = false) : Stepped s p repo x' := by
  refine ⟨?_,?_,?_,?_,?_,?_,sees,?_,removes⟩
  · rwa [readers]
  · intro q _ file
    rwa [readers] at file
  · intro q _ _ file
    rwa [readers]
  · intro file
    rw [readers] at file
    exact files (known.files file) file
  · intro now
    rw [readers]
    exact known.reads (reads now)
  · rwa [readers]
  · intro now
    rw [← known.same]
    exact .inl (reads now)

theorem Known.goes (known : Known s p x) (inv : Inv s)
    (same : repo.readers = s.repo.readers ∧ repo.rdDir = s.repo.rdDir)
    (proc : ProcOk s.repo.readers p x') (files : x.mayRead = true → x'.mayRead = true)
    (reads : x'.reads = true → x.reads = true)
    (sees : ∀ r, r ≠ p → (s.proc r).reads = true → Sees x' r) (removes : x'.removes = none) :
    Stepped s p repo x' := by
  refine known.stay same.1 (same.2 ▸ inv.dir) proc (fun may _ => files may) reads sees ?_
  intro r is
  rw [removes] at is
  cases is

theorem Known.creat (inv : Inv s) (known : Known s p x) (proc : ∀ readers, ProcOk readers p x')
    (files : x'.mayRead = true) (reads : x'.reads = true → x.reads = true)
    (sees : ∀ r, r ≠ p → (s.proc r).reads = true → Sees x' r) (removes : x'.removes = none) :
    Stepped s p (s.repo.creat p) x' := by
  have gone : ∀ r, x'.removes = some r → s.alive r = false := by
    intro r is
    rw [removes] at is
    cases is
  unfold Repo.creat
  split
  next there =>
    refine ⟨proc _,?_,?_,fun _ => files, fun _ => mem_insert_self, ?_,sees,?_,gone⟩
    · intro q other file
      exact (mem_insert_iff.mp file).resolve_left other
    · intro q _ _ file
      exact mem_insert_of_mem file
    · intro missing
      rw [there] at missing
      cases missing
    · intro now
      rw [← known.same]
      exact .inl (reads now)
  next => exact known.stay rfl inv.dir (proc _) (fun _ _ => files) reads sees gone

theorem Known.unlink (inv : Inv s) (known : Known s p x) {r : Pid} (whose : r = p ∨ s.alive r = false)
    (proc : ∀ readers, ProcOk readers p x') (files : r ≠ p → x.mayRead = true → x'.mayRead = true)
    (reads : x'.reads = true → r ≠ p ∧ x.reads = true)
    (sees : ∀ r, r ≠ p → (s.proc r).reads = true → Sees x' r) (removes : x'.removes = none) :
    Stepped s p (s.repo.unlink r) x' := by
  have left : ∀ q, q ∈ (s.repo.unlink r).readers ↔ q ∈ s.repo.readers ∧ q ≠ r := by
    intro q
    unfold Repo.unlink
    rw [mem_filter,bne_iff_ne]
  refine ⟨proc _,?_,?_,?_,?_,?_,sees,?_,?_⟩
  · intro q _ file
    exact ((left q).mp file).1
  · intro q other lives file
    refine (left q).mpr ⟨file,?_⟩
    intro same
    rcases whose with own | gone
    · exact other (same.trans own)
    · rw [← same,lives] at gone
      cases gone
  · intro file
    obtain ⟨there,other⟩ := (left p).mp file
    exact files other.symm (known.files there)
  · intro now
    obtain ⟨other,before⟩ := reads now
    exact (left p).mpr ⟨known.reads before,other.symm⟩
  · intro missing
    have empty : s.repo.readers = [] := inv.dir missing
    unfold Repo.unlink
    rw [empty]
    rfl
  · intro now
    rw [← known.same]
    exact .inl (reads now).2
  · intro r is
    rw [removes] at is
    cases is

theorem rmdirReaders_readers (repo : Repo) : repo.rmdirReaders.readers = repo.readers := by
  unfold Repo.rmdirReaders
  split <;> rfl

theorem rmdirReaders_dir (inv : Inv s) : s.repo.rmdirReaders.rdDir = false → s.repo.readers = [] := by
  unfold Repo.rmdirReaders
  split
  next empty => exact fun _ => empty
  next => exact inv.dir

theorem rmdirWriter_readers (repo : Repo) : repo.rmdirWriter.readers = repo.readers := by
  unfold Repo.rmdirWriter
  split <;> rfl

private theorem rmdirWriter_dir (repo : Repo) : repo.rmdirWriter.rdDir = repo.rdDir := by
  unfold Repo.rmdirWriter
  split <;> rfl

variable {w : Pid}

theorem held_owns (inv : Inv s) (locks : Lockfile.Inv s.view) (held : (s.proc w).lock = .held) :
    Lockfile.Owns s.repo.writer w := by
  have lives : s.alive w = true := by
    by_contra gone
    obtain ⟨idle,_,notWriter⟩ := inv.dead w (not_eq_true _ ▸ gone)
    have ok := inv.procs w
    unfold ProcOk at ok
    rw [idle,notWriter,held] at ok
    cases ok
  exact Lockfile.Holds.owns locks ⟨lives,held⟩

private theorem owns_lockPid {fs : Lockfile.Fs} (repo : Repo) (is : repo.writer = fs)
    (owns : Lockfile.Owns fs w) :
    repo.lockPid = some w := by
  obtain ⟨i,file,content⟩ := owns
  unfold Repo.lockPid
  rwa [is,file]

theorem lockPid_owns {repo : Repo} (pid : repo.lockPid = some w) : Lockfile.Owns repo.writer w := by
  unfold Repo.lockPid at pid
  cases file : repo.writer.file with
  | none =>
    rw [file] at pid
    cases pid
  | some i =>
    rw [file] at pid
    exact ⟨i,file,pid⟩

theorem idle_not_owns (locks : Lockfile.Inv s.view) (idle : (s.proc p).lock = .idle) :
    ¬ Lockfile.Owns s.repo.writer p := by
  have ok := locks.locks p (.inr idle)
  change Lockfile.LockOk s.repo.writer s.alive p (s.proc p).lock at ok
  rw [idle] at ok
  exact ok.2

variable {i : Nat} {pc : Pc} {lock : Lock} {rd wr : Bool}

section
variable (known : Known s p ⟨pc,lock,rd,wr⟩)
include known

theorem rdRetry_stepped (readers : repo.readers = s.repo.readers)
    (dir : repo.rdDir = false → s.repo.readers = []) (plainly : lock = plain wr ∧ rd = false)
    (absent : p ∉ s.repo.readers) (sees : ∀ r, r ≠ p → (s.proc r).reads = true → wr = false) :
    Stepped s p repo (Proc.rdRetry ⟨pc,lock,rd,wr⟩ i) := by
  have reads : (rd || false) = true → False := by
    rw [plainly.2]
    exact false_ne_true
  unfold Proc.rdRetry Proc.goto
  split
  · exact known.stay readers dir plainly (fun _ there => absurd there absent)
      (fun now => (reads now).elim) sees
      (fun _ none => by cases none)
  · exact known.stay readers dir plainly.1 (fun _ there => absurd there absent)
      (fun now => (reads now).elim) sees
      (fun _ none => by cases none)

theorem wrRetry_stepped (readers : repo.readers = s.repo.readers)
    (dir : repo.rdDir = false → s.repo.readers = []) (free : wr = false ∧ lock = .idle)
    (files : p ∈ s.repo.readers → (rd || false) = true)
    (reads : (rd || false) = true → Proc.reads ⟨pc,lock,rd,wr⟩ = true) :
    Stepped s p repo (Proc.wrRetry ⟨pc,lock,rd,wr⟩ i) := by
  have may : p ∈ s.repo.readers → ((rd || false) || false) = true := by
    rwa [Bool.or_false]
  unfold Proc.wrRetry Proc.goto
  split
  · exact known.stay readers dir free (fun _ there => may there) reads (fun _ _ _ => free.1)
      (fun _ none => by cases none)
  · refine known.stay readers dir ?_ (fun _ there => may there) reads (fun _ _ _ => free.1)
      (fun _ none => by cases none)
    rw [free.1,free.2]
    rfl

theorem scanned_stepped {n : Nat}
    (readers : repo.readers = s.repo.readers) (dir : repo.rdDir = false → s.repo.readers = [])
    (owner : wr = false ∧ lock = .held) (flags : Proc.reads ⟨pc,lock,rd,wr⟩ = (rd || false))
    (files : p ∈ s.repo.readers → ((rd || false) || false) = true)
    (counted : ∀ r, r ≠ p → (s.proc r).reads = true → 0 < n) :
    Stepped s p repo (Proc.scanned ⟨pc,lock,rd,wr⟩ i n) := by
  have reads : (rd || false) = true → Proc.reads ⟨pc,lock,rd,wr⟩ = true := by
    rw [flags]
    exact id
  unfold Proc.scanned
  split
  next none_ =>
    refine known.stay readers dir owner.2 (fun _ => files) reads ?_ (fun _ none => by cases none)
    intro r other now
    exact absurd (counted r other now) (by rw [none_]; exact Nat.lt_irrefl 0)
  next =>
    exact known.stay readers dir ⟨owner.1,.inl rfl⟩ (fun _ => files) reads (fun _ _ _ => owner.1)
      (fun _ none => by cases none)

end

theorem unlocked_stepped (down : Bool) (known : Known s p ⟨pc,lock,rd,wr⟩)
    (readers : repo.readers = s.repo.readers) (dir : repo.rdDir = false → s.repo.readers = [])
    (lock' : Lock) (free : wr = false ∧ lock' = .idle)
    (flags : Proc.reads ⟨pc,lock,rd,wr⟩ = (rd || down))
    (files : Proc.mayRead ⟨pc,lock,rd,wr⟩ = Proc.reads ⟨pc,lock,rd,wr⟩) :
    Stepped s p repo (Proc.unlocked ⟨pc,lock',rd,wr⟩ down) := by
  have reads : Proc.reads (Proc.unlocked ⟨pc,lock',rd,wr⟩ down) = Proc.reads ⟨pc,lock,rd,wr⟩ := by
    rw [flags]
    exact or_false _
  refine known.stay readers dir ?_ ?_ (fun now => by rw [← reads]; exact now) (fun _ _ _ => free.1)
    (fun _ none => by cases none)
  · rw [free.1,free.2]
    rfl
  · intro may _
    rw [files,← reads] at may
    exact (Bool.or_false _).trans may

private theorem not_reading (off : rd = false) : ¬ (rd || false) = true := by
  rw [off]
  exact false_ne_true

theorem no_file (off : rd = false) (files : p ∈ s.repo.readers → ((rd || false) || false) = true) :
    p ∉ s.repo.readers := by
  intro there
  have may := files there
  rw [off] at may
  cases may

theorem step_stepped (inv : Inv s) (locks : Lockfile.Inv s.view) (acts : s.alive p = true)
    {r : Repo × Proc} (ran : (s.proc p).step s.alive p s.repo = some r) : Stepped s p r.1 r.2 := by
  have known := inv.known p
  generalize is : s.proc p = x at known ran
  obtain ⟨pc,lock,rd,wr⟩ := x
  have ok := known.proc
  have files := known.files
  have sees := known.sees
  have mine : (s.proc p).lock = lock := by rw [is]
  cases pc with
  | idle => cases ran
  | rdExists i | wrExists i | downExists =>
    cases ran
    split <;> exact known.goes inv ⟨rfl,rfl⟩ ok id id sees rfl
  | rdMkdir i | downMkdir =>
    cases ran
    exact known.stay rfl (fun missing => by cases missing) ok (fun may _ => may) id sees
      (fun _ none => by cases none)
  | rdAccess i =>
    cases ran
    split
    next => exact known.goes inv ⟨rfl,rfl⟩ ok id id sees rfl
    next => exact rdRetry_stepped known rfl inv.dir ok (no_file ok.2 files) sees
  | rdCreat i | downCreat =>
    cases ran
    exact known.creat inv (fun _ => ok) (or_true _) id sees rfl
  | rdCheck i =>
    cases ran
    split
    next there => exact known.goes inv ⟨rfl,rfl⟩ ⟨ok,there⟩ (fun _ => or_true _) id sees rfl
    next absent => exact rdRetry_stepped known rfl inv.dir ok absent sees
  | rdWriter i =>
    cases ran
    split
    next free =>
      refine ⟨ok.1.1,fun _ _ file => file, fun _ _ _ file => file, fun _ => rfl, fun _ => ok.2,
        inv.dir,sees,?_,(fun _ none => by cases none)⟩
      intro _
      right
      intro w _ held
      obtain ⟨j,file,_⟩ := held_owns inv locks held
      rw [free] at file
      cases file
    next => exact known.goes inv ⟨rfl,rfl⟩ ok.1 (fun _ => or_true _) id sees rfl
  | rdUnlink i =>
    cases ran
    exact known.unlink inv (.inl rfl) (fun _ => ok) (absurd rfl ·)
      (fun now => absurd now (not_reading ok.2)) sees rfl
  | rdRmdir i =>
    cases ran
    exact rdRetry_stepped known (rmdirReaders_readers _) (rmdirReaders_dir inv) ok
      (no_file ok.2 files) sees
  | wrMkdir i =>
    cases ran
    exact known.goes inv ⟨rfl,rfl⟩ ok id id sees rfl
  | wrAccess i =>
    cases ran
    split
    next => exact known.goes inv ⟨rfl,rfl⟩ ⟨ok.1,_,rfl⟩ id id sees rfl
    next =>
      exact wrRetry_stepped known rfl inv.dir ok
        (fun there => (Bool.or_false _).symm.trans (files there)) id
  | wrLock i =>
    obtain ⟨c,calling⟩ := ok.2
    subst calling
    cases ran
    dsimp only
    rcases Lockfile.step_shape c with idle | held | goes
    · rw [idle,if_neg Lock.noConfusion,if_pos rfl]
      exact known.goes inv ⟨rfl,rfl⟩ ⟨ok.1,rfl⟩ id id sees rfl
    · rw [held,if_pos rfl]
      exact known.goes inv ⟨rfl,rfl⟩ ⟨ok.1,rfl⟩ id id sees rfl
    · obtain ⟨c',goes⟩ := goes
      rw [goes,if_neg Lock.noConfusion,if_neg Lock.noConfusion]
      exact known.goes inv ⟨rfl,rfl⟩ ⟨ok.1,_,rfl⟩ id id sees rfl
  | wrRmdir i | wrBackRmdir i =>
    cases ran
    exact wrRetry_stepped known (rmdirWriter_readers _) (by rw [rmdirWriter_dir]; exact inv.dir) ok
      (fun there => (Bool.or_false _).symm.trans (files there)) id
  | scan i =>
    cases ran
    refine known.goes inv ⟨rfl,rfl⟩ ok id id ?_ rfl
    intro r _ now
    left
    have there := inv.reads r now
    split
    next => exact there
    next missing =>
      rwa [inv.dir (not_eq_true _ ▸ missing)] at there
  | scanOpen i todo n rm =>
    cases todo with
    | nil =>
      cases ran
      have counted : ∀ r, r ≠ p → (s.proc r).reads = true → 0 < n :=
        fun r other now => (sees r other now).resolve_left not_mem_nil
      split
      next => exact known.goes inv ⟨rfl,rfl⟩ ok id id counted rfl
      next => exact scanned_stepped known rfl inv.dir ok rfl files counted
    | cons r todo =>
      cases ran
      split
      next =>
        refine known.goes inv ⟨rfl,rfl⟩ ok id id ?_ rfl
        intro r' other now
        exact or_assoc.mp (Or.imp_left mem_cons.mp (sees r' other now))
      next => exact known.goes inv ⟨rfl,rfl⟩ ok id id (fun _ _ _ => .inr (Nat.succ_pos n)) rfl
  | scanFindpid i r todo n rm =>
    cases ran
    split
    next => exact known.goes inv ⟨rfl,rfl⟩ ok id id (fun _ _ _ => .inr (Nat.succ_pos n)) rfl
    next gone =>
      refine known.stay rfl inv.dir ok (fun may _ => may) id ?_ ?_
      · intro r' other now
        rcases sees r' other now with same | seen
        · rw [← same] at gone
          exact absurd (inv.reader_alive now) gone
        · exact seen
      · intro r' same
        cases same
        exact not_eq_true _ ▸ gone
  | scanUnlink i r todo n =>
    cases ran
    have gone : s.alive r = false := known.removes r rfl
    have other : r ≠ p := by
      intro same
      rw [same,acts] at gone
      cases gone
    exact known.unlink inv (.inr gone) (fun _ => ok) (fun _ may => may)
      (fun now => ⟨other,now⟩) sees rfl
  | scanRmdir i n =>
    cases ran
    exact scanned_stepped known (rmdirReaders_readers _) (rmdirReaders_dir inv) ok rfl files sees
  | wrBack i =>
    rcases ok.2 with first | second
    · subst first
      cases ran
      exact known.goes inv ⟨rfl,rfl⟩ ⟨ok.1,.inr rfl⟩ id id sees rfl
    · subst second
      cases ran
      exact known.goes inv ⟨rfl,rfl⟩ ⟨ok.1,rfl⟩ id id sees rfl
  | downOpen =>
    cases ran
    refine known.goes inv ⟨rfl,rfl⟩ ⟨ok,?_⟩ id id sees rfl
    intro own
    cases wr with
    | true => rfl
    | false => exact absurd (lockPid_owns own) (idle_not_owns locks (mine.trans ok))
  | downRead pid =>
    cases ran
    split
    next own =>
      refine known.goes inv ⟨rfl,rfl⟩ ⟨ok.2 own,?_⟩ id id sees rfl
      have held := ok.1
      rwa [show wr = true from ok.2 own] at held
    next => exact known.goes inv ⟨rfl,rfl⟩ ok.1 id id sees rfl
  | downCheck =>
    cases ran
    split
    next there =>
      refine ⟨⟨rfl,.inl ok.2⟩,fun _ _ file => file, fun _ _ _ file => file,
        fun _ => by simp [Proc.mayRead,Proc.reads],fun _ => there, inv.dir,fun _ _ _ => rfl, ?_,
        (fun _ none => by cases none)⟩
      intro _
      right
      intro w other held
      exact other ((held_owns inv locks held).unique (held_owns inv locks (mine.trans ok.2)))
    next absent =>
      refine known.stay rfl inv.dir ?_ (fun _ there => absurd there absent) id sees
        (fun _ none => by cases none)
      rw [show wr = true from ok.1]
      exact ok.2
  | unOpen down =>
    cases ran
    refine known.goes inv ⟨rfl,rfl⟩ ⟨ok.1,?_⟩ id id sees rfl
    rcases ok.2 with held | idle
    · exact .inl ⟨owns_lockPid s.repo rfl (held_owns inv locks (mine.trans held)),held⟩
    · exact .inr ⟨fun own => idle_not_owns locks (mine.trans idle) (lockPid_owns own), idle⟩
  | unRead down pid =>
    cases ran
    split
    next => exact known.goes inv ⟨rfl,rfl⟩ ⟨ok.1,.inl rfl⟩ id id sees rfl
    next other =>
      have idle := ok.2.resolve_left (fun held => other held.1)
      exact unlocked_stepped down known rfl inv.dir lock ⟨ok.1,idle.2⟩ rfl (or_false _)
  | unLock down error =>
    rcases ok.2 with first | second
    · subst first
      cases ran
      exact known.goes inv ⟨rfl,rfl⟩ ⟨ok.1,.inr rfl⟩ id id sees rfl
    dsimp only at second
    subst second
    cases ran
    dsimp only
    rw [if_pos rfl]
    generalize (error || Proc.unlinkFails _ p s.repo) = failed
    split
    next =>
      refine unlocked_stepped down known ?_ ?_ .idle ⟨ok.1,rfl⟩ rfl (or_false _)
      · rfl
      · exact inv.dir
    next => exact known.goes inv ⟨rfl,rfl⟩ ⟨ok.1,rfl⟩ id id sees rfl
  | unRmdir down =>
    cases ran
    exact unlocked_stepped down known (rmdirWriter_readers _)
      (by rw [rmdirWriter_dir]; exact inv.dir) lock ok rfl
      (or_false _)
  | rdUnlock =>
    cases ran
    change Stepped s p (s.repo.unlink p) ⟨.idle,lock,rd,wr⟩
    exact known.unlink inv (.inl rfl) (fun _ => ok.1) (absurd rfl ·)
      (fun now => absurd now (not_reading ok.2)) sees rfl

end

end BitKeeper.Locking
