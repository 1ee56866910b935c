import BitKeeper.Weave.Script

/-!
The weaves that check-ins write, from a new file on. All that is known of such a weave afterwards is
its shape.
-/

namespace BitKeeper.Weave

open List Bytes Ndiff Bool

theorem seek_finish {flags : Flags} {line patchserial print : Nat} {w w' : Fweave} {rest : List Line}
    (fin : flags.fin = true) (onto : flags.before = false)
    (run : seek flags line patchserial print w rest = .ok w') : w'.weave = [] := by
  fun_induction seek flags line patchserial print w rest with
  | case1 =>
    cases run
    rfl
  | case2 | case3 | case7 | case9 | case11 => cases run
  | case4 _ _ _ _ there => exact absurd (fin.symm.trans there.1) true_eq_false.mp
  | case5 _ _ _ _ _ stops => exact absurd (onto.symm.trans stops.2) false_ne_true
  | case8 _ _ _ _ _ _ _ _ stops => exact absurd (onto.symm.trans stops.1) false_ne_true
  | case6 _ _ _ _ _ _ ih | case10 _ _ _ _ _ _ _ _ _ _ _ _ ih
  | case12 _ _ _ _ _ _ _ _ _ _ _ _ _ ih => exact ih run

theorem weaveMove_finish {w w' : Fweave} (run : weaveMove w 0 0 wmFinish = .ok w') :
    w'.weave = [] := by
  unfold weaveMove at run
  rw [if_neg (by decide)] at run
  unfold moveTo at run
  split at run
  next ended =>
    rw [if_neg fun fails => absurd fails.1 (by decide)] at run
    cases run
    exact ended
  · exact seek_finish rfl rfl run

variable {n : Nat} {weave : List Line}

theorem weaveAddthis_tracks {v : Weaving} {phase : Phase} (tracks : Tracks n weave phase v.w)
    (taken : ∀ buf, v.addthis = some buf → phase = .copying ∧ Clean buf) :
    Tracks n weave phase (weaveAddthis n v).w := by
  unfold weaveAddthis
  cases same : v.addthis with
  | none => exact tracks
  | some buf =>
    obtain ⟨rfl,clean⟩ := taken buf same
    obtain ⟨read,whole,edit⟩ := tracks.edit
    have wrote := Edit.block edit (forall_mem_singleton.mpr clean)
    rw [append_assoc] at wrote
    refine ⟨tracks.plain,read,whole,?_⟩
    change Edit n .copying read
      (v.w.out ++ [.ctrl .ins n false] ++ [.data buf] ++ [.ctrl .fin n false])
    rwa [append_assoc,append_assoc]

variable {last : Nat → Bytes} {slist : Nat → Bool} {script : List Command} {woven : Woven}

private theorem weaveDiffs_edit (sound : Sound weave [] last) {diffs : List Bytes}
    (commands : Script diffs script) (lined : Lined diffs) {fixdelp : Nat}
    (deletes : fixdelp ≠ 0 → lastDelete 0 script ≠ 0) {fixdel : Nat}
    (run : weaveDiffs weave slist n diffs fixdelp = .ok (woven, fixdel)) :
    (∃ phase, phase ≠ .deleting ∧ Edit n phase weave woven.weave) ∧
      (fixdel ≠ 0 → lastDelete 0 script ≠ 0) := by
  obtain ⟨v,ran,run⟩ := bind_ok run
  obtain ⟨w,moved,run⟩ := bind_ok run
  obtain ⟨_,_,run⟩ := bind_ok run
  obtain ⟨_,_,run⟩ := bind_ok run
  cases run
  have start : Between n weave { w := { weave := weave, slist := slist }, fixdel := fixdelp } :=
    ⟨⟨rfl,[],rfl,.start⟩,fun buf impossible => absurd impossible (by simp)⟩
  have left := weaveCommands_left commands lined start ran
  obtain ⟨phase,going,tracks,done⟩ := left.tracks
  -- the line is only taken when the script ends in a delete
  have taken : ∀ buf, v.addthis = some buf → phase = .copying ∧ Clean buf := by
    intro buf found
    refine ⟨?_,sound.clean (left.addthis buf found)⟩
    have fixed : fixdelp ≠ 0 := by
      intro zero
      rw [left.unfixed zero] at found
      cases found
    have nonzero : v.lastdel ≠ 0 := left.lastdel ▸ deletes fixed
    cases phase with
    | copying => rfl
    | deleting => exact absurd rfl going
    | done => exact absurd (done rfl) nonzero
  have finished := (weaveAddthis_tracks tracks taken).move moved
  obtain ⟨read,whole,edit⟩ := finished.edit
  rw [weaveMove_finish moved,append_nil] at whole
  refine ⟨⟨phase,going,whole ▸ edit⟩,fun fixes => ?_⟩
  by_cases fix : ((weaveAddthis n v).lastdel != 0 && (weaveAddthis n v).w.line == w.line &&
    w.noLf != 0) = true
  · have nonzero : (weaveAddthis n v).lastdel ≠ 0 :=
      bne_iff_ne.mp ((and_eq_true _ _).mp ((and_eq_true _ _).mp fix).1).1
    unfold weaveAddthis at nonzero
    cases same : v.addthis with
    | none =>
      rw [same] at nonzero
      rwa [← show v.lastdel = lastDelete 0 script from left.lastdel]
    | some buf =>
      rw [same] at nonzero
      exact absurd rfl nonzero
  · rw [if_neg fix] at fixes
    split at fixes
    · exact absurd rfl fixes
    · exact deletes fixes

private theorem deltaAgain_edit (sound : Sound weave [] last) {diffs : List Bytes}
    (commands : Script diffs script) (lined : Lined diffs) {fuel fixdel : Nat}
    (deletes : fixdel ≠ 0 → lastDelete 0 script ≠ 0)
    (run : deltaAgain weave slist n diffs fuel fixdel = .ok woven) :
    ∃ phase, phase ≠ .deleting ∧ Edit n phase weave woven.weave := by
  induction fuel generalizing fixdel with
  | zero => cases run
  | succ fuel ih =>
    obtain ⟨⟨woven',fixdel'⟩,ran,run⟩ := bind_ok run
    obtain ⟨edit,again⟩ := weaveDiffs_edit sound commands lined deletes ran
    split at run
    · cases run
      exact edit
    · exact ih again run

theorem deltaWrite_edit (sound : Sound weave [] last) {diffs : Bytes}
    (read : readRCS diffs = some script) (run : deltaWrite weave slist n diffs = .ok woven) :
    ∃ phase, phase ≠ .deleting ∧ Edit n phase weave woven.weave := by
  unfold deltaWrite at run
  split at run
  · cases run
  · exact deltaAgain_edit sound (readRCS_script read) (lined_lines diffs) (absurd rfl ·) run

structure ChecksIn (weave : List Line) (slist : Nat → Bool) (n : Nat) (new : Bytes)
    (woven : Woven) : Prop where
  real : n ≠ 0
  newest : Older n weave
  script : ∃ diffs commands old, readRCS diffs = some commands ∧ getReg slist false weave = some old ∧
    applyRCS 1 commands (lines old) = some (lines new) ∧ deltaWrite weave slist n diffs = .ok woven

inductive Built : List Line → Prop
  | empty : Built []
  | first (text : Bytes) (n : Nat) (n0 : Bool) (real : n ≠ 0) (second : n0 = true → 1 < n) : Built
      (checkin text n n0)
  | delta {weave : List Line} (slist : Nat → Bool) (n : Nat) {new : Bytes} {woven : Woven}
      (built : Built weave)
      (checked : ChecksIn weave slist n new woven) : Built woven.weave

theorem fixCntlA_ne_nil {line : Bytes} (filled : line ≠ []) : fixCntlA line ≠ [] := by
  unfold fixCntlA
  by_cases escaped : line.head? = some cntlA
  · rw [if_pos escaped]
    exact cons_ne_nil _ _
  · rwa [if_neg escaped]

theorem checkin_sound (text : Bytes) {n0 : Bool} (real : n ≠ 0) (second : n0 = true → 1 < n) :
    ∃ last, Sound (checkin text n n0) [] last := by
  have clean : ∀ buf ∈ (lines text).map fun line => fixCntlA (dropCR (chomp line)), Clean buf := by
    intro buf inside
    obtain ⟨line,listed,rfl⟩ := mem_map.mp inside
    exact clean_line false ((lined_lines text).mem listed)
  have marked : (lines text).getLast?.any missesLf = true →
      ∃ buf, ((lines text).map fun line => fixCntlA (dropCR (chomp line))).getLast? = some buf ∧
        buf ≠ [] := by
    intro missing
    cases ends : (lines text).getLast? with
    | none =>
      rw [ends] at missing
      cases missing
    | some line =>
      rw [ends] at missing
      obtain ⟨noLf,kept⟩ := (and_eq_true _ _).mp missing
      refine ⟨_,by rw [getLast?_map,ends]; rfl,fixCntlA_ne_nil ?_⟩
      rw [eq_of_beq kept,show chomp line = line from if_neg (bne_iff_ne.mp noLf)]
      rcases (lined_lines text).mem (mem_of_getLast? ends) with ended | unended
      · exact absurd ended.last (bne_iff_ne.mp noLf)
      · exact unended.filled
  obtain ⟨last,wrote,_⟩ := sound_block real .nil (nofun) not_mem_nil clean
    ((lines text).getLast?.any missesLf) marked
  rw [nil_append,map_map] at wrote
  cases zeroth : n0 with
  | false => exact ⟨last,wrote⟩
  | true =>
    have unsealed : .ctrl .fin 1 true ∉ .ctrl .ins n false ::
        (lines text).map (Line.data ∘ fun line => fixCntlA (dropCR (chomp line))) ++
        [.ctrl .fin n ((lines text).getLast?.any missesLf)] := by
      have other := second zeroth
      simp
      omega
    have none_ : ∀ buf ∈ ([] : List Bytes), Clean buf := nofun
    obtain ⟨last',block,_⟩ := sound_block Nat.one_ne_zero wrote (nofun) unsealed
      none_ false (fun impossible => absurd impossible (by decide))
    refine ⟨last',?_⟩
    rwa [append_assoc,append_assoc] at block

theorem Built.sound (built : Built weave) : ∃ last, Sound weave [] last := by
  induction built with
  | empty => exact ⟨_,.nil⟩
  | first text n n0 real second => exact checkin_sound text real second
  | delta slist n built checked ih =>
    obtain ⟨last,sound⟩ := ih
    obtain ⟨diffs,commands,old,read,_,_,run⟩ := checked.script
    obtain ⟨phase,going,edit⟩ := deltaWrite_edit sound read run
    obtain ⟨last',wrote,_⟩ := edit.sound checked.real sound checked.newest
    rw [show phase.state n [] = [] from if_neg going] at wrote
    exact ⟨last',wrote⟩

end BitKeeper.Weave
