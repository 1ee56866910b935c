import BitKeeper.Weave.State
import BitKeeper.Ndiff.Patch

/-!
The shape of a weave that was written by check-ins: every data line is in an insert block, a serial is
open at most once, and behind the end of a block that is marked `N` nothing of its delta follows.
-/

namespace BitKeeper.Weave

open List Function Bytes

def Clean (buf : Bytes) : Prop := ∃ line, buf = fixCntlA line ∧ dropCR line = line ∧ newline ∉ line

def Line.serial : Line → Nat
  | .data _ => 0
  | .ctrl _ serial _ => serial

/-- The lines so far, the open blocks, and the last data line of each delta. -/
inductive Sound : List Line → List Entry → (Nat → Bytes) → Prop
  | nil : Sound [] [] fun _ => []
  | data {weave : List Line} {state : List Entry} {last : Nat → Bytes} {buf : Bytes}
      (sound : Sound weave state last)
      (inside : whatstate state ≠ 0) (clean : Clean buf) :
      Sound (weave ++ [.data buf]) state (update last (whatstate state) buf)
  | ctrl {weave : List Line} {state state' : List Entry} {last : Nat → Bytes} {type : Kind}
      {serial : Nat} {nonl : Bool}
      (sound : Sound weave state last) (real : serial ≠ 0) (unsealed : .ctrl .fin serial true ∉ weave)
      (fresh : type ≠ .fin → serial ∉ state.map Entry.ser)
      (marked : nonl = true → type = .fin ∧ whatstate state = serial ∧ last serial ≠ [])
      (moved : changestate type serial state = some state') :
      Sound (weave ++ [.ctrl type serial nonl]) state' last

variable {weave : List Line} {last : Nat → Bytes}

theorem Sound.data_inv {buf : Bytes} {state : List Entry}
    (sound : Sound (weave ++ [.data buf]) state last) :
    ∃ before, Sound weave state before ∧ whatstate state ≠ 0 ∧ Clean buf ∧
      last = update before (whatstate state) buf := by
  generalize whole : weave ++ [Line.data buf] = all at sound
  cases sound with
  | nil => exact absurd whole (by simp)
  | data sound inside clean =>
    obtain ⟨rfl,same⟩ := append_inj' whole rfl
    cases same
    exact ⟨_,sound,inside,clean,rfl⟩
  | ctrl sound _ _ _ _ _ => exact absurd (append_inj' whole rfl).2 (by simp)

variable {type : Kind}

theorem Sound.ctrl_inv {serial : Nat} {nonl : Bool} {state' : List Entry}
    (sound : Sound (weave ++ [.ctrl type serial nonl]) state' last) :
    ∃ state, Sound weave state last ∧ serial ≠ 0 ∧ .ctrl .fin serial true ∉ weave ∧
      (type ≠ .fin → serial ∉ state.map Entry.ser) ∧
      (nonl = true → type = .fin ∧ whatstate state = serial ∧ last serial ≠ []) ∧
      changestate type serial state = some state' := by
  generalize whole : weave ++ [Line.ctrl type serial nonl] = all at sound
  cases sound with
  | nil => exact absurd whole (by simp)
  | data sound inside clean => exact absurd (append_inj' whole rfl).2 (by simp)
  | ctrl sound real unsealed fresh marked moved =>
    obtain ⟨rfl,same⟩ := append_inj' whole rfl
    cases same
    exact ⟨_,sound,real,unsealed,fresh,marked,moved⟩

section Sound

variable {weave : List Line} {state : List Entry} {last : Nat → Bytes}

variable (sound : Sound weave state last)
include sound

theorem Sound.ordered : Ordered state := by
  induction sound with
  | nil => exact List.Pairwise.nil
  | data _ _ _ ih => exact ih
  | ctrl _ _ _ fresh _ moved ih => exact ordered_changestate ih fresh moved

theorem Sound.clean {buf : Bytes} (inside : .data buf ∈ weave) : Clean buf := by
  induction sound with
  | nil => cases inside
  | data _ _ clean ih =>
    rcases mem_append.mp inside with early | here
    · exact ih early
    · cases mem_singleton.mp here
      exact clean
  | ctrl _ _ _ _ _ _ ih =>
    rcases mem_append.mp inside with early | here
    · exact ih early
    · exact absurd (mem_singleton.mp here) (by simp)

theorem Sound.real {serial : Nat} {nonl : Bool}
    (inside : .ctrl type serial nonl ∈ weave) : serial ≠ 0 := by
  induction sound with
  | nil => cases inside
  | data _ _ _ ih =>
    rcases mem_append.mp inside with early | here
    · exact ih early
    · exact absurd (mem_singleton.mp here) (by simp)
  | ctrl _ real _ _ _ _ ih =>
    rcases mem_append.mp inside with early | here
    · exact ih early
    · cases mem_singleton.mp here
      exact real

theorem Sound.opened {e : Entry} (inside : e ∈ state) : ∃ line ∈ weave, line.serial = e.ser := by
  induction sound with
  | nil => cases inside
  | data _ _ _ ih =>
    obtain ⟨line,listed,same⟩ := ih inside
    exact ⟨line,mem_append_left _ listed,same⟩
  | ctrl _ _ _ _ _ moved ih =>
    rcases mem_of_changestate moved inside with same | old
    · exact ⟨_,mem_append_right _ (mem_singleton.mpr rfl),same.symm⟩
    · obtain ⟨line,listed,same⟩ := ih old
      exact ⟨line,mem_append_left _ listed,same⟩

theorem Sound.sealed {p : Nat} (inside : .ctrl .fin p true ∈ weave) :
    p ∉ state.map Entry.ser ∧ last p ≠ [] := by
  induction sound with
  | nil => cases inside
  | @data weave state last buf _ open_ _ ih =>
    have early : .ctrl .fin p true ∈ weave :=
      (mem_append.mp inside).resolve_right fun here => absurd (mem_singleton.mp here) (by simp)
    obtain ⟨absent,filled⟩ := ih early
    refine ⟨absent,?_⟩
    rw [update_of_ne]
    · exact filled
    · rintro rfl
      exact absent (mem_map.mpr ⟨_,whatstate_mem open_,rfl⟩)
  | @ctrl weave state state' last type serial nonl sound _ unsealed _ marked moved ih =>
    rcases mem_append.mp inside with early | here
    · obtain ⟨absent,filled⟩ := ih early
      refine ⟨fun listed => ?_, filled⟩
      obtain ⟨e,old,same⟩ := mem_map.mp listed
      rcases mem_of_changestate moved old with equal | old
      · exact unsealed (by rw [← equal,same]; exact early)
      · exact absent (mem_map.mpr ⟨e,old,same⟩)
    · cases mem_singleton.mp here
      exact ⟨not_mem_closed sound.ordered moved,(marked rfl).2.2⟩

end Sound

inductive Phase where
  | copying
  | deleting
  | done
deriving DecidableEq

/-- The lines of the weave read and written, while delta `n` puts its blocks in between. -/
inductive Edit (n : Nat) : Phase → List Line → List Line → Prop
  | start : Edit n .copying [] []
  | copy {phase : Phase} {read out : List Line} (line : Line) (edit : Edit n phase read out) :
      Edit n phase (read ++ [line]) (out ++ [line])
  | open_ {read out : List Line} (edit : Edit n .copying read out) :
      Edit n .deleting read (out ++ [.ctrl .del n false])
  | close {read out : List Line} (edit : Edit n .deleting read out) :
      Edit n .copying read (out ++ [.ctrl .fin n false])
  | block {read out : List Line} {bufs : List Bytes} (edit : Edit n .copying read out)
      (clean : ∀ buf ∈ bufs, Clean buf) :
      Edit n .copying read (out ++ .ctrl .ins n false :: bufs.map .data ++ [.ctrl .fin n false])
  | last {read out : List Line} {bufs : List Bytes} {buf : Bytes} (edit : Edit n .copying read out)
      (clean : ∀ buf ∈ bufs, Clean buf) (ends : bufs.getLast? = some buf) (filled : buf ≠ []) :
      Edit n .done read (out ++ .ctrl .ins n false :: bufs.map .data ++ [.ctrl .fin n true])

def Phase.state (phase : Phase) (n : Nat) (state : List Entry) : List Entry :=
  if phase = .deleting then ⟨n,false⟩ :: state else state

variable (phase : Phase)

theorem whatstate_phase (n : Nat) (state : List Entry) :
    whatstate (phase.state n state) = whatstate state := by
  unfold Phase.state
  by_cases deleting : phase = .deleting
  · rw [if_pos deleting]
    exact if_neg Bool.false_ne_true
  · rw [if_neg deleting]

variable {n : Nat} {serial : Nat}

theorem changestate_phase {state state' : List Entry} (older : serial < n)
    (moved : changestate type serial state = some state') :
    changestate type serial (phase.state n state) = some (phase.state n state') := by
  unfold Phase.state
  by_cases deleting : phase = .deleting
  · rw [if_pos deleting,if_pos deleting,changestate_top type older,moved]
    rfl
  · rw [if_neg deleting,if_neg deleting,moved]

variable {state : List Entry}

theorem not_mem_phase (other : serial ≠ n)
    (fresh : serial ∉ state.map Entry.ser) : serial ∉ (phase.state n state).map Entry.ser := by
  unfold Phase.state
  by_cases deleting : phase = .deleting
  · rw [if_pos deleting,map_cons,mem_cons,not_or]
    exact ⟨other,fresh⟩
  · rwa [if_neg deleting]

def Older (n : Nat) (weave : List Line) : Prop := ∀ line ∈ weave, line.serial < n

variable {phase : Phase} {read out : List Line}

theorem Edit.mem (edit : Edit n phase read out) {nonl : Bool} (inside : .ctrl type serial nonl ∈ out)
    (other : serial ≠ n) : .ctrl type serial nonl ∈ read := by
  have blocks : ∀ {bufs : List Bytes} {mark : Bool} {out : List Line},
      .ctrl type serial nonl ∈ out ++ .ctrl .ins n false :: bufs.map .data ++ [.ctrl .fin n mark] →
        .ctrl type serial nonl ∈ out := by
    intro bufs mark out inside
    rw [append_assoc,mem_append,cons_append,mem_cons,mem_append,mem_singleton] at inside
    rcases inside with early | first | data | ends
    · exact early
    · cases first
      exact absurd rfl other
    · obtain ⟨buf,_,impossible⟩ := mem_map.mp data
      cases impossible
    · cases ends
      exact absurd rfl other
  induction edit with
  | start => cases inside
  | copy line edit ih =>
    rcases mem_append.mp inside with early | here
    · exact mem_append_left _ (ih early)
    · exact mem_append_right _ here
  | open_ edit ih | close edit ih =>
    rcases mem_append.mp inside with early | here
    · exact ih early
    · cases mem_singleton.mp here
      exact absurd rfl other
  | block edit clean ih => exact ih (blocks inside)
  | last edit clean ends filled ih => exact ih (blocks inside)

theorem Edit.unsealed (edit : Edit n phase read out) (older : Older n read)
    (going : phase ≠ .done) : .ctrl .fin n true ∉ out := by
  induction edit with
  | start => exact not_mem_nil
  | copy line edit ih =>
    obtain ⟨before,here⟩ := forall_mem_append.mp older
    rw [mem_append,not_or]
    refine ⟨ih before going,fun inside => ?_⟩
    have smaller := here line (mem_singleton.mpr rfl)
    rw [← mem_singleton.mp inside] at smaller
    exact Nat.lt_irrefl n smaller
  | open_ edit ih | close edit ih =>
    rw [mem_append,not_or,mem_singleton]
    exact ⟨ih older (by decide),by simp⟩
  | block edit clean ih =>
    rw [append_assoc,mem_append,not_or]
    refine ⟨ih older (by decide),?_⟩
    simp
  | last edit clean ends filled ih => exact absurd rfl going

private theorem sound_datas (sound : Sound weave state last) (inside : whatstate state ≠ 0)
    {bufs : List Bytes} (clean : ∀ buf ∈ bufs, Clean buf) :
    ∃ last', Sound (weave ++ bufs.map .data) state last' ∧
      (∀ p, p ≠ whatstate state → last' p = last p) ∧
      ∀ buf, bufs.getLast? = some buf → last' (whatstate state) = buf := by
  induction bufs using List.reverseRecOn with
  | nil =>
    rw [map_nil,append_nil]
    exact ⟨last,sound,fun p _ => rfl, fun buf impossible => absurd impossible (by simp)⟩
  | append_singleton bufs buf ih =>
    obtain ⟨before,here⟩ := forall_mem_append.mp clean
    obtain ⟨last',wrote,same,_⟩ := ih before
    refine ⟨update last' (whatstate state) buf,?_,fun p other => ?_, fun found ends => ?_⟩
    · rw [map_append,← append_assoc]
      exact .data wrote inside (here buf (mem_singleton.mpr rfl))
    · rw [update_of_ne other,same p other]
    · rw [getLast?_concat] at ends
      rw [update_self,Option.some.inj ends]

theorem sound_block (real : n ≠ 0) (sound : Sound weave state last)
    (newest : ∀ e ∈ state, e.ser < n) (unsealed : .ctrl .fin n true ∉ weave) {bufs : List Bytes}
    (clean : ∀ buf ∈ bufs, Clean buf) (nonl : Bool)
    (marked : nonl = true → ∃ buf, bufs.getLast? = some buf ∧ buf ≠ []) :
    ∃ last', Sound (weave ++ .ctrl .ins n false :: bufs.map .data ++ [.ctrl .fin n nonl])
      state last' ∧
      ∀ p, p ≠ n → last' p = last p := by
  have fresh : n ∉ state.map Entry.ser := by
    intro inside
    obtain ⟨e,listed,same⟩ := mem_map.mp inside
    exact Nat.lt_irrefl n (same ▸ newest e listed)
  have opened : Sound (weave ++ [.ctrl .ins n false]) (⟨n,true⟩ :: state) last :=
    .ctrl sound real unsealed (fun _ => fresh) (fun impossible => absurd impossible (by decide))
      (changestate_newest (by decide) newest)
  have what : whatstate (⟨n,true⟩ :: state) = n := if_pos rfl
  obtain ⟨last',wrote,same,ends⟩ := sound_datas opened (by rw [what]; exact real) clean
  rw [what] at same ends
  rw [append_assoc,singleton_append] at wrote
  refine ⟨last',.ctrl wrote real ?_ (absurd rfl ·) (fun mark => ⟨rfl,what,?_⟩)
    (changestate_close n true state), same⟩
  · rw [mem_append,not_or]
    refine ⟨unsealed,?_⟩
    simp
  · obtain ⟨buf,found,filled⟩ := marked mark
    rwa [ends buf found]

theorem Edit.sound (real : n ≠ 0) (edit : Edit n phase read out) (sound : Sound read state last)
    (older : Older n read) :
    ∃ last', Sound out (phase.state n state) last' ∧ ∀ p, p ≠ n → last' p = last p := by
  have newer : ∀ {read : List Line} {state : List Entry} {last : Nat → Bytes},
    Sound read state last → Older n read →
      ∀ e ∈ state, e.ser < n := by
    intro read state last sound older e inside
    obtain ⟨line,listed,same⟩ := sound.opened inside
    exact same ▸ older line listed
  induction edit generalizing state last with
  | start => exact ⟨last,sound,fun p _ => rfl⟩
  | @copy phase read out line edit ih =>
    obtain ⟨before,here⟩ := forall_mem_append.mp older
    have smaller := here line (mem_singleton.mpr rfl)
    cases line with
    | data buf =>
      obtain ⟨last0,prior,inside,clean,rfl⟩ := sound.data_inv
      obtain ⟨last',wrote,same⟩ := ih prior before
      have what := whatstate_phase phase n state
      refine ⟨_,.data wrote (what ▸ inside) clean,fun p other => ?_⟩
      rw [what]
      by_cases found : p = whatstate state
      · rw [found,update_self,update_self]
      · rw [update_of_ne found,update_of_ne found,same p other]
    | ctrl type serial nonl =>
      obtain ⟨old,prior,nonzero,unsealed,fresh,marked,moved⟩ := sound.ctrl_inv
      obtain ⟨last',wrote,same⟩ := ih prior before
      have other : serial ≠ n := Nat.ne_of_lt smaller
      refine ⟨last',.ctrl wrote nonzero (fun inside => unsealed (edit.mem inside other))
        (fun opens => not_mem_phase phase other (fresh opens)) (fun mark => ?_)
          (changestate_phase phase smaller moved),
        same⟩
      obtain ⟨closes,what,filled⟩ := marked mark
      exact ⟨closes,(whatstate_phase phase n old).trans what,by rw [same serial other]; exact filled⟩
  | open_ edit ih =>
    obtain ⟨last',wrote,same⟩ := ih sound older
    have newest := newer sound older
    refine ⟨last',.ctrl wrote real (edit.unsealed older (by decide)) (fun _ inside => ?_)
      (fun impossible => absurd impossible (by decide)) (changestate_newest (by decide) newest), same⟩
    obtain ⟨e,listed,equal⟩ := mem_map.mp inside
    exact Nat.lt_irrefl n (equal ▸ newest e listed)
  | close edit ih =>
    obtain ⟨last',wrote,same⟩ := ih sound older
    exact ⟨last',.ctrl wrote real (edit.unsealed older (by decide)) (absurd rfl ·)
      (fun impossible => absurd impossible (by decide)) (changestate_close n false state), same⟩
  | block edit clean ih =>
    obtain ⟨last',wrote,same⟩ := ih sound older
    obtain ⟨final,closed,rest⟩ := sound_block real wrote (newer sound older)
      (edit.unsealed older (by decide)) clean
      false (fun impossible => absurd impossible (by decide))
    exact ⟨final,closed,fun p other => (rest p other).trans (same p other)⟩
  | last edit clean ends filled ih =>
    obtain ⟨last',wrote,same⟩ := ih sound older
    obtain ⟨final,closed,rest⟩ := sound_block real wrote (newer sound older)
      (edit.unsealed older (by decide)) clean
      true (fun _ => ⟨_,ends,filled⟩)
    exact ⟨final,closed,fun p other => (rest p other).trans (same p other)⟩

end BitKeeper.Weave
