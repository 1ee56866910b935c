import Mathlib
import BitKeeper.Lockfile.Model

/-!
What a process knows between two of its calls is stable under the calls of the others, as long as
only one process at a time discards the lock of a dead owner.
-/

namespace BitKeeper.Lockfile

open List Function Nat

namespace Fs
variable {fs : Fs} {p q : Pid}

private theorem uniq_unlinkUniq (fs : Fs) (p q : Pid) :
    (fs.unlinkUniq p).uniq q = if q = p then none else fs.uniq q := by
  unfold uniq unlinkUniq
  induction fs.uniqs with
  | nil => exact (ite_self none).symm
  | cons e rest ih =>
    by_cases gone : e.1 = p
    · rw [filter_cons_of_neg (by simpa using gone),ih]
      split
      next same => rfl
      next other => rw [lookup_cons,beq_false_of_ne (fun same => other (same.trans gone))]
    · rw [filter_cons_of_pos (by simpa using gone),lookup_cons,lookup_cons,ih]
      split
      next found => rw [if_neg (fun same => gone ((beq_iff_eq.mp found).symm.trans same))]
      next => rfl

theorem uniq_unlinkUniq_self (fs : Fs) (p : Pid) : (fs.unlinkUniq p).uniq p = none := by
  rw [uniq_unlinkUniq,if_pos rfl]

theorem uniq_unlinkUniq_ne (other : q ≠ p) : (fs.unlinkUniq p).uniq q = fs.uniq q := by
  rw [uniq_unlinkUniq,if_neg other]

theorem mem_of_uniq {i : Ino} (at_ : fs.uniq p = some i) : (p, i) ∈ fs.uniqs := by
  obtain ⟨before,after,split,_⟩ := lookup_eq_some_iff.mp at_
  rw [split]
  exact mem_append_right _ mem_cons_self

end Fs

structure Fs.Ok (fs : Fs) : Prop where
  apart : (fs.uniqs.map Prod.snd).Nodup
  below : ∀ e ∈ fs.uniqs, e.2 < fs.fresh
  empty : ∀ i, fs.fresh ≤ i → fs.content i = none
  written : ∀ i, fs.file = some i → ∃ d, fs.content i = some d

variable {fs : Fs} {p : Pid}

theorem Fs.Ok.uniq_inj (ok : fs.Ok) {q : Pid} {i : Ino} (first : fs.uniq p = some i)
    (second : fs.uniq q = some i) : p = q :=
  congrArg Prod.fst (inj_on_of_nodup_map ok.apart (mem_of_uniq first) (mem_of_uniq second) rfl)

theorem Fs.Ok.count_uniq (ok : fs.Ok) (i : Ino) : fs.uniqs.countP (fun e => e.2 == i) ≤ 1 := by
  have counts : fs.uniqs.countP (fun e => e.2 == i) = (fs.uniqs.map Prod.snd).count i := by
    rw [List.count,countP_map]
    rfl
  rw [counts]
  exact nodup_iff_count_le_one.mp ok.apart i

theorem Fs.Ok.links_le (ok : fs.Ok) (name : Option Ino) : fs.links name ≤ 2 := by
  cases name with
  | none => exact zero_le _
  | some i =>
    have names := ok.count_uniq i
    have value : fs.links (some i) = fs.uniqs.countP (fun e => e.2 == i) + if fs.file = some i then
      1 else 0 := rfl
    rw [value]
    split <;> omega

theorem Fs.Ok.links_won (ok : fs.Ok) {i : Ino} (mine : fs.uniq p = some i)
    (linked : fs.file = fs.uniq p) : fs.links (fs.uniq p) = 2 := by
  have names := ok.count_uniq i
  have one : 0 < fs.uniqs.countP (fun e => e.2 == i) := by
    rw [countP_pos_iff]
    exact ⟨(p, i),mem_of_uniq mine,beq_self_eq_true _⟩
  unfold Fs.links
  rw [mine] at linked ⊢
  dsimp only
  rw [if_pos linked]
  omega

def Ready (fs : Fs) (p : Pid) : Prop := ∃ i, fs.uniq p = some i ∧ fs.content i = some p

def Owns (fs : Fs) (p : Pid) : Prop := ∃ i, fs.file = some i ∧ fs.content i = some p

theorem Owns.unique {q : Pid} (first : Owns fs p) (second : Owns fs q) : p = q := by
  obtain ⟨i,at_,content⟩ := first
  obtain ⟨j,at',content'⟩ := second
  rw [at_] at at'
  cases at'
  rw [content] at content'
  exact Option.some.inj content'

def Perhaps (fs : Fs) (p : Pid) : Prop := Ready fs p ∧ (Owns fs p → fs.file = fs.uniq p)

def StaleOk (fs : Fs) (alive : Pid → Bool) : Stale → Prop
  | .open_ => True
  | .read i => ∃ d, fs.content i = some d ∧ (alive d = false → fs.file = some i)
  | .findpid d => alive d = false → Owns fs d
  | .unlinkUniq d => alive d = false ∧ Owns fs d
  | .unlinkFile d => alive d = false ∧ Owns fs d

def PcOk (fs : Fs) (alive : Pid → Bool) (p : Pid) : Pc → Prop
  | .access => fs.uniq p = none ∧ ¬ Owns fs p
  | .unlinkUniq => ¬ Owns fs p
  | .openUniq => fs.uniq p = none ∧ ¬ Owns fs p
  | .write i => (fs.uniq p = some i ∧ fs.content i = none) ∧ ¬ Owns fs p
  | .link => Ready fs p ∧ ¬ Owns fs p
  | .cacheUniq => Perhaps fs p
  | .cacheFile uniq => Perhaps fs p ∧ uniq = fs.uniq p
  | .cacheLinksUniq => Perhaps fs p
  | .cacheLinksFile => Perhaps fs p
  | .wonLinks => Perhaps fs p
  | .wonUniq => Perhaps fs p
  | .wonFile uniq => Perhaps fs p ∧ uniq = fs.uniq p
  | .nfsLinks => Ready fs p ∧ ¬ Owns fs p
  | .nfsUniq => False
  | .nfsFile _ => False
  | .nfsUnlink => False
  | .exists_ => Ready fs p ∧ ¬ Owns fs p
  | .stale _ next => (Ready fs p ∧ ¬ Owns fs p) ∧ StaleOk fs alive next
  | .giveUp => Ready fs p ∧ ¬ Owns fs p

def LockOk (fs : Fs) (alive : Pid → Bool) (p : Pid) : Lock → Prop
  | .idle => fs.uniq p = none ∧ ¬ Owns fs p
  | .calling c => PcOk fs alive p c.pc
  | .held => Ready fs p ∧ fs.file = fs.uniq p
  | .unlockUniq => Ready fs p ∧ fs.file = fs.uniq p
  | .unlockFile => fs.uniq p = none ∧ Owns fs p

theorem Ready.owns (ready : Ready fs p) (linked : fs.file = fs.uniq p) : Owns fs p := by
  obtain ⟨i,mine,content⟩ := ready
  exact ⟨i,linked.trans mine,content⟩

structure Frame (fs fs' : Fs) (alive : Pid → Bool) (q : Pid) (l : Lock) : Prop where
  uniq : fs'.uniq q = fs.uniq q
  content : ∀ i d, fs.content i = some d → fs'.content i = some d
  unwritten : ∀ i, fs.uniq q = some i → fs.content i = none → fs'.content i = none
  gains : ¬ Owns fs q → ¬ Owns fs' q
  keeps : ∀ x, Owns fs x → x = q ∨ (alive x = false ∧ target fs l = some x) → fs'.file = fs.file

section
variable {fs fs' : Fs} {alive : Pid → Bool} {q : Pid} {l : Lock}

section
variable (frame : Frame fs fs' alive q l)
include frame

theorem Frame.ready (ready : Ready fs q) : Ready fs' q := by
  obtain ⟨i,mine,content⟩ := ready
  exact ⟨i,frame.uniq.trans mine,frame.content i q content⟩

theorem Frame.owns {x : Pid} (owns : Owns fs x)
    (known : x = q ∨ (alive x = false ∧ target fs l = some x)) : Owns fs' x := by
  have same := frame.keeps x owns known
  obtain ⟨i,at_,content⟩ := owns
  exact ⟨i,same.trans at_,frame.content i x content⟩

theorem Frame.perhaps (perhaps : Perhaps fs q) : Perhaps fs' q := by
  refine ⟨frame.ready perhaps.1,?_⟩
  intro owns
  have owned : Owns fs q := by
    by_contra not
    exact frame.gains not owns
  rw [frame.keeps q owned (.inl rfl),frame.uniq]
  exact perhaps.2 owned

theorem Frame.linked (linked : Ready fs q ∧ fs.file = fs.uniq q) :
    Ready fs' q ∧ fs'.file = fs'.uniq q := by
  refine ⟨frame.ready linked.1,?_⟩
  rw [frame.keeps q (linked.1.owns linked.2) (.inl rfl),frame.uniq]
  exact linked.2

theorem Frame.waits (waits : Ready fs q ∧ ¬ Owns fs q) :
    Ready fs' q ∧ ¬ Owns fs' q := ⟨frame.ready waits.1,frame.gains waits.2⟩

theorem Frame.absent (absent : fs.uniq q = none ∧ ¬ Owns fs q) :
    fs'.uniq q = none ∧ ¬ Owns fs' q := ⟨frame.uniq.trans absent.1,frame.gains absent.2⟩

end

theorem looks_of_stale {c : Call} {last : Bool} {next : Stale} (at_ : c.pc = .stale last next)
    (fs : Fs) (d : Pid) (looks : target fs (.calling { c with pc := .stale last next }) = some d) :
    target fs (.calling c) = some d := by
  rwa [← at_] at looks

theorem Frame.staleOk {c : Call} {last : Bool} {next : Stale} (at_ : c.pc = .stale last next)
    (frame : Frame fs fs' alive q (.calling c)) (ok : StaleOk fs alive next) :
    StaleOk fs' alive next := by
  have looks := looks_of_stale at_ fs
  cases next with
  | open_ => trivial
  | read i =>
    obtain ⟨d,content,dead⟩ := ok
    refine ⟨d,frame.content i d content,?_⟩
    intro gone
    have file := dead gone
    rwa [frame.keeps d ⟨i,file,content⟩ (.inr ⟨gone,looks d content⟩)]
  | findpid d =>
    intro gone
    exact frame.owns (ok gone) (.inr ⟨gone,looks d rfl⟩)
  | unlinkUniq d | unlinkFile d => exact ⟨ok.1,frame.owns ok.2 (.inr ⟨ok.1,looks d rfl⟩)⟩

theorem Frame.pcOk {c : Call} (frame : Frame fs fs' alive q (.calling c))
    (ok : PcOk fs alive q c.pc) :
    PcOk fs' alive q c.pc := by
  have stale : ∀ last next, c.pc = .stale last next → StaleOk fs alive next →
      StaleOk fs' alive next :=
    fun last next at_ => frame.staleOk at_
  generalize c.pc = pc at ok stale
  cases pc with
  | access | openUniq => exact frame.absent ok
  | unlinkUniq => exact frame.gains ok
  | write i => exact ⟨⟨frame.uniq.trans ok.1.1,frame.unwritten i ok.1.1 ok.1.2⟩,frame.gains ok.2⟩
  | link | nfsLinks | exists_ | giveUp => exact frame.waits ok
  | cacheUniq | cacheLinksUniq | cacheLinksFile | wonLinks | wonUniq => exact frame.perhaps ok
  | cacheFile uniq | wonFile uniq => exact ⟨frame.perhaps ok.1,ok.2.trans frame.uniq.symm⟩
  | nfsUniq | nfsFile uniq | nfsUnlink => exact ok
  | stale last next => exact ⟨frame.waits ok.1,stale last next rfl ok.2⟩

theorem Frame.lockOk (frame : Frame fs fs' alive q l) (ok : LockOk fs alive q l) :
    LockOk fs' alive q l := by
  cases l with
  | idle => exact frame.absent ok
  | calling c => exact frame.pcOk ok
  | held | unlockUniq => exact frame.linked ok
  | unlockFile => exact ⟨frame.uniq.trans ok.1,frame.owns ok.2 (.inl rfl)⟩

end

inductive Effect (fs : Fs) (alive : Pid → Bool) (p : Pid) (l : Lock) : Fs → Prop where
  | same : Effect fs alive p l fs
  | unlinkUniq {d : Pid} : d = p ∨ alive d = false → Effect fs alive p l (fs.unlinkUniq d)
  | openUniq {fs' : Fs} : fs.openUniq p = some fs' → Effect fs alive p l fs'
  | write {i : Ino} : fs.uniq p = some i → fs.content i = none → Effect fs alive p l (fs.write i p)
  | link : Ready fs p → Effect fs alive p l (fs.link p)
  | unlinkFile {d : Pid} : Owns fs d → d = p ∨ (alive d = false ∧ target fs l = some d) →
      Effect fs alive p l fs.unlinkFile

section
variable {fs fs' : Fs} {alive : Pid → Bool} {p : Pid} {l : Lock}

theorem openUniq_some {fs fs' : Fs} {p : Pid} (opened : fs.openUniq p = some fs') :
    fs.uniq p = none ∧
      fs' = { fs with uniqs := (p, fs.fresh) :: fs.uniqs, fresh := fs.fresh + 1 } := by
  unfold Fs.openUniq at opened
  split at opened
  next free => exact ⟨free.2,(Option.some.inj opened).symm⟩
  next => cases opened

theorem Fs.Ok.openUniq (ok : fs.Ok) (opened : fs.openUniq p = some fs') : fs'.Ok := by
  obtain ⟨_,made⟩ := openUniq_some opened
  rw [made]
  refine ⟨?_,?_,fun i above => ok.empty i (le_of_succ_le above), ok.written⟩
  · rw [map_cons,nodup_cons]
    refine ⟨?_,ok.apart⟩
    intro member
    obtain ⟨e,inside,same⟩ := mem_map.mp member
    have low := ok.below e inside
    rw [same] at low
    exact lt_irrefl _ low
  · intro e member
    rcases mem_cons.mp member with new | old
    · rw [new]
      exact lt_succ_self _
    · exact lt_succ_of_lt (ok.below e old)

theorem Fs.Ok.write (ok : fs.Ok) {i : Ino} (mine : fs.uniq p = some i) : (fs.write i p).Ok := by
  refine ⟨ok.apart,ok.below,?_,?_⟩
  · intro j above
    have low := ok.below _ (mem_of_uniq mine)
    have other : j ≠ i := by
      intro same
      rw [same] at above
      exact absurd low (not_lt.mpr above)
    exact (update_of_ne other _ _).trans (ok.empty j above)
  · intro j file
    by_cases same : j = i
    · rw [same]
      exact ⟨p,update_self ..⟩
    · obtain ⟨d,content⟩ := ok.written j file
      exact ⟨d,(update_of_ne same _ _).trans content⟩

theorem Effect.ok (effect : Effect fs alive p l fs') (ok : fs.Ok) : fs'.Ok := by
  cases effect with
  | same => exact ok
  | unlinkUniq =>
    refine ⟨?_,?_,ok.empty,ok.written⟩
    · exact ok.apart.sublist (List.Sublist.map _ filter_sublist)
    · intro e member
      exact ok.below e (mem_of_mem_filter member)
  | openUniq opened => exact ok.openUniq opened
  | write mine => exact ok.write mine
  | link ready =>
    unfold Fs.link
    split
    next =>
      refine ⟨ok.apart,ok.below,ok.empty,?_⟩
      intro i file
      obtain ⟨j,mine,content⟩ := ready
      rw [show fs.uniq p = some i from file] at mine
      cases mine
      exact ⟨p,content⟩
    next => exact ok
  | unlinkFile => exact ⟨ok.apart,ok.below,ok.empty,fun i file => by cases file⟩

theorem frame_same {k : Lock} {q : Pid} (uniq : fs'.uniq q = fs.uniq q)
    (content : fs'.content = fs.content) (file : fs'.file = fs.file) : Frame fs fs' alive q k := by
  refine ⟨uniq,?_,?_,?_,fun _ _ _ => file⟩
  · exact fun _ _ held => content ▸ held
  · exact fun _ _ empty => content ▸ empty
  · unfold Owns
    rw [file,content]
    exact id

theorem Effect.frame (effect : Effect fs alive p l fs') (ok : fs.Ok) (acts : alive p = true)
    {q : Pid} {k : Lock} (other : q ≠ p) (lives : alive q = true ∨ fs.uniq q = none ∧ ¬ Owns fs q)
    (alone : ∀ d, alive d = false → target fs l = some d → target fs k ≠ some d) :
    Frame fs fs' alive q k := by
  cases effect with
  | same => exact frame_same rfl rfl rfl
  | @unlinkUniq d own =>
    refine frame_same ?_ rfl rfl
    by_cases same : q = d
    · rcases lives with lives | absent
      · rcases own with own | dead
        · exact absurd (same.trans own) other
        · rw [← same,lives] at dead
          cases dead
      · rw [same,Fs.uniq_unlinkUniq_self,← same,absent.1]
    · exact Fs.uniq_unlinkUniq_ne same
  | openUniq opened =>
    obtain ⟨_,made⟩ := openUniq_some opened
    rw [made]
    refine frame_same ?_ rfl rfl
    unfold Fs.uniq
    rw [lookup_cons,beq_false_of_ne other]
  | @write i mine empty =>
    have content : ∀ j d, fs.content j = some d → (fs.write i p).content j = some d := by
      intro j d at_
      have apart : j ≠ i := by
        intro same
        rw [same,empty] at at_
        cases at_
      exact (update_of_ne apart _ _).trans at_
    refine ⟨rfl,content,?_,?_,fun _ _ _ => rfl⟩
    · intro j theirs at_
      have apart : j ≠ i := by
        intro same
        rw [same] at theirs
        exact other (ok.uniq_inj theirs mine)
      exact (update_of_ne apart _ _).trans at_
    · rintro not ⟨j,file,at_⟩
      obtain ⟨d,old⟩ := ok.written j file
      rw [content j d old] at at_
      exact not ⟨j,file,old.trans at_⟩
  | link ready =>
    unfold Fs.link
    split
    next free =>
      refine ⟨rfl,fun _ _ content => content, fun _ _ content => content, ?_,?_⟩
      · intro _ owns
        have mine : Owns { fs with file := fs.uniq p } p := ready
        exact other (owns.unique mine)
      · rintro x ⟨i,file,_⟩
        rw [free] at file
        cases file
    next => exact frame_same rfl rfl rfl
  | @unlinkFile d owns who =>
    refine ⟨rfl,fun _ _ content => content, fun _ _ content => content, ?_,?_⟩
    · rintro _ ⟨i,file,_⟩
      cases file
    intro x owned known
    have same := owned.unique owns
    subst same
    exfalso
    rcases known with self | looked
    · subst self
      rcases who with own | dead
      · exact other own
      · rcases lives with lives | absent
        · rw [lives] at dead
          cases dead.1
        · exact absent.2 owns
    · rcases who with own | dead
      · rw [own,acts] at looked
        cases looked.1
      · exact alone x dead.1 dead.2 looked.2

theorem wait_ok (c : Call) (waits : Ready fs p ∧ ¬ Owns fs p) : LockOk fs alive p c.wait := by
  unfold Call.wait
  split
  · exact waits
  · split
    · exact ⟨waits,trivial⟩
    · exact waits

private theorem notStale_ok (c : Call) (last : Bool) (waits : Ready fs p ∧ ¬ Owns fs p) :
    LockOk fs alive p (c.notStale last) := by
  unfold Call.notStale
  split
  · exact waits
  · exact wait_ok c waits

structure Kept (fs : Fs) (alive : Pid → Bool) (p : Pid) (l : Lock) (r : Fs × Lock) : Prop where
  effect : Effect fs alive p l r.1
  lockOk : LockOk r.1 alive p r.2

theorem staleStep_kept {c : Call} {last : Bool} {next : Stale} (at_ : c.pc = .stale last next)
    (acts : alive p = true) (waits : Ready fs p ∧ ¬ Owns fs p) (ok : fs.Ok)
    (stale : StaleOk fs alive next) :
    Kept fs alive p (.calling c) (c.staleStep alive fs last next) := by
  have looks := looks_of_stale at_ fs
  cases next with
  | open_ =>
    cases file : fs.file with
    | none =>
      unfold Call.staleStep
      rw [file]
      exact ⟨.same,notStale_ok c last waits⟩
    | some i =>
      unfold Call.staleStep
      rw [file]
      obtain ⟨d,content⟩ := ok.written i file
      exact ⟨.same,waits,d,content,fun _ => file⟩
  | read fd =>
    obtain ⟨d,content,dead⟩ := stale
    unfold Call.staleStep
    dsimp only
    rw [content]
    exact ⟨.same,waits,fun gone => ⟨fd,dead gone,content⟩⟩
  | findpid d =>
    unfold Call.staleStep
    refine ⟨.same,?_⟩
    dsimp only
    split
    next => exact notStale_ok c last waits
    next gone =>
      have dead : alive d = false := Bool.not_eq_true _ ▸ gone
      exact ⟨waits,dead,stale dead⟩
  | unlinkUniq d =>
    have other : p ≠ d := by
      intro same
      have dead : alive d = false := stale.1
      rw [← same,acts] at dead
      cases dead
    obtain ⟨i,mine,content⟩ := waits.1
    exact ⟨.unlinkUniq (.inr stale.1),
      ⟨⟨i,(Fs.uniq_unlinkUniq_ne other).trans mine,content⟩,waits.2⟩,stale⟩
  | unlinkFile d =>
    refine ⟨.unlinkFile stale.2 (.inr ⟨stale.1,looks d rfl⟩),waits.1,?_⟩
    rintro ⟨i,file,_⟩
    cases file

theorem Perhaps.lost {fs : Fs} {p : Pid} (perhaps : Perhaps fs p) (apart : fs.file ≠ fs.uniq p) :
    Ready fs p ∧ ¬ Owns fs p := ⟨perhaps.1,fun owns => apart (perhaps.2 owns)⟩

private theorem link_perhaps (waits : Ready fs p ∧ ¬ Owns fs p) : Perhaps (fs.link p) p := by
  unfold Fs.link
  split
  · exact ⟨waits.1,fun _ => rfl⟩
  · exact ⟨waits.1,fun owns => absurd owns waits.2⟩

theorem write_ready {i : Ino} (mine : fs.uniq p = some i) (empty : fs.content i = none) (ok : fs.Ok)
    (not : ¬ Owns fs p) : Ready (fs.write i p) p ∧ ¬ Owns (fs.write i p) p := by
  refine ⟨⟨i,mine,update_self ..⟩,?_⟩
  rintro ⟨j,file,content⟩
  obtain ⟨d,old⟩ := ok.written j file
  have apart : j ≠ i := by
    intro same
    rw [same,empty] at old
    cases old
  exact not ⟨j,file,(update_of_ne apart _ _).symm.trans content⟩

private theorem openUniq_mine (opened : fs.openUniq p = some fs') (ok : fs.Ok) :
    fs'.uniq p = some fs.fresh ∧ fs'.content fs.fresh = none := by
  obtain ⟨_,made⟩ := openUniq_some opened
  rw [made]
  refine ⟨?_,ok.empty _ le_rfl⟩
  unfold Fs.uniq
  rw [lookup_cons,beq_self_eq_true]

theorem step_kept {c : Call} (acts : alive p = true) (ok : fs.Ok) (pcOk : PcOk fs alive p c.pc) :
    Kept fs alive p (.calling c) (c.step alive p fs) := by
  unfold Call.step
  generalize at_ : c.pc = pc at pcOk
  cases pc with
  | access =>
    refine ⟨.same,?_⟩
    dsimp only
    split
    · exact pcOk.2
    · exact pcOk
  | unlinkUniq => exact ⟨.unlinkUniq (.inl rfl),Fs.uniq_unlinkUniq_self fs p,pcOk⟩
  | openUniq =>
    cases opened : fs.openUniq p with
    | none => exact ⟨.same,pcOk⟩
    | some fs' =>
      refine ⟨.openUniq opened,openUniq_mine opened ok,?_⟩
      obtain ⟨_,made⟩ := openUniq_some opened
      rw [made]
      exact pcOk.2
  | write i => exact ⟨.write pcOk.1.1 pcOk.1.2,write_ready pcOk.1.1 pcOk.1.2 ok pcOk.2⟩
  | link => exact ⟨.link pcOk.1,link_perhaps pcOk⟩
  | cacheUniq | wonUniq => exact ⟨.same,pcOk,rfl⟩
  | cacheFile uniq =>
    refine ⟨.same,?_⟩
    dsimp only
    split <;> exact pcOk.1
  | cacheLinksUniq | cacheLinksFile =>
    refine ⟨.same,?_⟩
    dsimp only
    split <;> exact pcOk
  | wonLinks =>
    refine ⟨.same,?_⟩
    dsimp only
    split
    next => exact pcOk
    next few =>
      apply Perhaps.lost pcOk
      intro linked
      obtain ⟨i,mine,_⟩ := pcOk.1
      exact few (ok.links_won mine linked)
  | wonFile uniq =>
    refine ⟨.same,?_⟩
    dsimp only
    split
    next same => exact ⟨pcOk.1.1,same.symm.trans pcOk.2⟩
    next apart =>
      apply pcOk.1.lost
      intro linked
      exact apart (pcOk.2.trans linked.symm)
  | nfsLinks =>
    refine ⟨.same,?_⟩
    rwa [if_neg (not_lt.mpr (ok.links_le _))]
  | nfsUniq | nfsFile uniq | nfsUnlink => exact pcOk.elim
  | exists_ =>
    refine ⟨.same,?_⟩
    dsimp only
    split
    next => exact pcOk
    next =>
      split
      next => exact ⟨pcOk,trivial⟩
      next => exact wait_ok c pcOk
  | stale last next => exact staleStep_kept at_ acts pcOk.1 ok pcOk.2
  | giveUp => exact ⟨.unlinkUniq (.inl rfl),Fs.uniq_unlinkUniq_self fs p,pcOk.2⟩

theorem lockStep_kept {r : Fs × Lock} (acts : alive p = true) (ok : fs.Ok)
    (lockOk : LockOk fs alive p l) (ran : l.step alive p fs = some r) : Kept fs alive p l r := by
  cases l with
  | idle => cases ran
  | calling c =>
    cases ran
    exact step_kept acts ok lockOk
  | held => cases ran
  | unlockUniq =>
    cases ran
    exact ⟨.unlinkUniq (.inl rfl),Fs.uniq_unlinkUniq_self fs p,lockOk.1.owns lockOk.2⟩
  | unlockFile =>
    cases ran
    refine ⟨.unlinkFile lockOk.2 (.inl rfl),lockOk.1,?_⟩
    rintro ⟨i,file,_⟩
    cases file

end

end BitKeeper.Lockfile
