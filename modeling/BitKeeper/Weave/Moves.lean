import BitKeeper.Weave.Shape

/-!
`weaveMove` only copies, so the weave that comes out is the old one with blocks of the new delta in
it. An RCS script can have a line without a newline only at its very end.
-/

namespace BitKeeper.Weave

open List Bytes

theorem bind_ok {α β : Type} {value : Except Failure α} {next : α → Except Failure β} {result : β}
    (run : (value >>= next) = .ok result) : ∃ a, value = .ok a ∧ next a = .ok result := by
  cases value with
  | error failure => cases run
  | ok a => exact ⟨a,rfl,run⟩

variable {n : Nat} {phase : Phase}

theorem Edit.copies {read out : List Line} (edit : Edit n phase read out) (copied : List Line) :
    Edit n phase (read ++ copied) (out ++ copied) := by
  induction copied generalizing read out with
  | nil =>
    rwa [append_nil,append_nil]
  | cons line copied ih =>
    have further := ih (.copy line edit)
    rwa [← append_cons,← append_cons] at further

structure Copied (w : Fweave) (rest : List Line) (w' : Fweave) : Prop where
  part : ∃ copied, rest = copied ++ w'.weave ∧ w'.out = w.out ++ copied
  plain : w'.wmap = id
  slist : w'.slist = w.slist

variable {w : Fweave}

theorem Copied.stop (plain : w.wmap = id) (flags : Flags) (print : Nat) (rest : List Line) :
    Copied w rest (w.stop flags print rest) :=
  ⟨⟨[],rfl,(append_nil _).symm⟩,plain,rfl⟩

variable {w' : Fweave} {rest : List Line}

theorem Copied.cons {w1 : Fweave} {line : Line} (copied : Copied w1 rest w')
    (out : w1.out = w.out ++ [line]) (slist : w1.slist = w.slist) : Copied w (line :: rest) w' := by
  obtain ⟨part,whole,wrote⟩ := copied.part
  refine ⟨⟨line :: part,by rw [whole,cons_append],?_⟩,copied.plain,copied.slist.trans slist⟩
  rw [wrote,out,append_assoc,singleton_append]

variable {flags : Flags} {patchserial : Nat}

private theorem skipNewer_copied {skipblock print : Nat}
    (run : skipNewer flags patchserial skipblock print w rest = .ok w') (plain : w.wmap = id) :
    Copied w rest w' := by
  fun_induction skipNewer flags patchserial skipblock print w rest with
  | case1 | case3 | case6 | case8 =>
    -- here the move stops
    cases run
    exact .stop plain ..
  | case2 | case4 | case7 | case9 | case10 => cases run
  | case5 _ _ _ _ _ _ _ ih => exact (ih run plain).cons rfl rfl
  | case11 _ _ _ _ _ _ _ _ _ _ _ _ _ ih => exact (ih run plain).cons (by rw [plain]; rfl) rfl

variable {line : Nat}

private theorem seek_copied {print : Nat} (run : seek flags line patchserial print w rest = .ok w')
    (plain : w.wmap = id) : Copied w rest w' := by
  fun_induction seek flags line patchserial print w rest with
  | case1 | case5 | case8 =>
    cases run
    exact .stop plain ..
  | case2 | case3 | case7 | case9 | case11 => cases run
  | case4 => exact skipNewer_copied run plain
  | case6 _ _ _ _ _ _ ih => exact (ih run plain).cons rfl rfl
  | case10 _ _ _ _ _ _ _ _ _ _ _ _ ih | case12 _ _ _ _ _ _ _ _ _ _ _ _ _ ih =>
    exact (ih run plain).cons (by rw [plain]; rfl) rfl

theorem moveTo_copied (plain : w.wmap = id) (run : moveTo w line patchserial flags = .ok w') :
    Copied w w.weave w' := by
  unfold moveTo at run
  split at run
  · by_cases fails : flags.fin = false ∧
      (flags.before = true ∨ (if flags.fast then line ≠ w.line else line ≠ 0))
    · rw [if_pos fails] at run
      cases run
    · rw [if_neg fails] at run
      cases run
      exact ⟨⟨[],rfl,(append_nil _).symm⟩,plain,rfl⟩
  · exact seek_copied run plain

theorem Copied.trans {w1 w2 : Fweave} (first : Copied w rest w1) (second : Copied w1 w1.weave w2) :
    Copied w rest w2 := by
  obtain ⟨part,whole,wrote⟩ := first.part
  obtain ⟨part',whole',wrote'⟩ := second.part
  refine ⟨⟨part ++ part',?_,?_⟩,second.plain,second.slist.trans first.slist⟩
  · rw [whole,whole',append_assoc]
  · rw [wrote',wrote,append_assoc]

theorem weaveMove_copied (plain : w.wmap = id) (run : weaveMove w line patchserial flags = .ok w') :
    Copied w w.weave w' := by
  unfold weaveMove at run
  split at run
  · obtain ⟨_,_,run⟩ := bind_ok run
    obtain ⟨w1,first,second⟩ := bind_ok run
    have copied := moveTo_copied plain first
    exact copied.trans (moveTo_copied copied.plain second)
  · exact moveTo_copied plain run

structure Tracks (n : Nat) (weave : List Line) (phase : Phase) (w : Fweave) : Prop where
  plain : w.wmap = id
  edit : ∃ read, read ++ w.weave = weave ∧ Edit n phase read w.out

variable {weave : List Line}

theorem Tracks.move (tracks : Tracks n weave phase w)
    (run : weaveMove w line patchserial flags = .ok w') :
    Tracks n weave phase w' := by
  have copied := weaveMove_copied tracks.plain run
  obtain ⟨part,whole,wrote⟩ := copied.part
  obtain ⟨read,all,edit⟩ := tracks.edit
  refine ⟨copied.plain,read ++ part,?_,?_⟩
  · rw [append_assoc,← whole,all]
  · rw [wrote]
    exact edit.copies part

theorem Tracks.mem (tracks : Tracks n weave phase w) {line : Line} (inside : line ∈ w.weave) :
    line ∈ weave := by
  obtain ⟨read,whole,_⟩ := tracks.edit
  rw [← whole]
  exact mem_append_right _ inside

structure Between (n : Nat) (weave : List Line) (v : Weaving) : Prop where
  tracks : Tracks n weave .copying v.w
  addthis : ∀ buf, v.addthis = some buf → .data buf ∈ weave

variable {v v' : Weaving} {howmany : Nat}

theorem weaveDeleteAt_between {place : Nat} (run : weaveDeleteAt n v place howmany = .ok v')
    (between : Between n weave v) : Between n weave v' := by
  obtain ⟨w,moved,run⟩ := bind_ok run
  obtain ⟨addthis,taken,run⟩ := bind_ok run
  obtain ⟨w1,deleted,run⟩ := bind_ok run
  cases run
  have before := between.tracks.move moved
  have opened : Tracks n weave .deleting (w.doctrl .del n false) := by
    obtain ⟨read,whole,edit⟩ := before.edit
    exact ⟨before.plain,read,whole,.open_ edit⟩
  have after := opened.move deleted
  refine ⟨?_,fun buf found => ?_⟩
  · obtain ⟨read,whole,edit⟩ := after.edit
    exact ⟨after.plain,read,whole,.close edit⟩
  change addthis = some buf at found
  rw [found] at taken
  unfold dupLine at taken
  split at taken
  · cases same : w.weave with
    | nil =>
      rw [same] at taken
      cases taken
    | cons line rest =>
      rw [same] at taken
      cases line with
      | ctrl type serial nonl => cases taken
      | data text =>
        cases taken
        exact before.mem (by rw [same]; exact mem_cons_self)
  · exact between.addthis buf (Except.ok.inj taken)

theorem weaveDelete_between (between : Between n weave v) {what : What} {place : Nat}
    (run : weaveDelete n v what place howmany = .ok v') : Between n weave v' := by
  unfold weaveDelete at run
  split at run
  · split at run
    · exact weaveDeleteAt_between run ⟨between.tracks,between.addthis⟩
    · exact weaveDeleteAt_between run ⟨between.tracks,between.addthis⟩
  · exact weaveDeleteAt_between run between

theorem clean_line (noLf : Bool) {b : Bytes} (one : Ended b ∨ Unended b) :
    Clean (fixCntlA (insertLine false noLf b).1) := by
  have body : newline ∉ chomp b := by
    unfold chomp
    rcases one with ended | unended
    · rw [if_pos ended.last]
      exact ended.once
    · rw [if_neg unended.last]
      exact unended.none_
  refine ⟨dropCR (chomp b),rfl,?_,fun inside => body ?_⟩
  · exact rdropWhile_idempotent _ _
  · exact ( rdropWhile_prefix _ _).subset inside

structure Inserted (v v' : Weaving) (diffs rest : List Bytes) (howmany : Nat) : Prop where
  bufs : ∃ bufs : List Bytes, v'.w.out = v.w.out ++ bufs.map .data ∧ (∀ buf ∈ bufs, Clean buf) ∧
    (v'.noLf = true → ∃ buf, bufs.getLast? = some buf ∧ buf ≠ [])
  script : rest = diffs.drop howmany
  weave : v'.w.weave = v.w.weave
  plain : v'.w.wmap = v.w.wmap
  addthis : v'.addthis = v.addthis
  lastdel : v'.lastdel = v.lastdel
  fixdel : v'.fixdel = v.fixdel
  last : v'.noLf = true → rest = []

theorem insertLines_inserted {diffs rest : List Bytes} (lined : Lined diffs) (clear : v.noLf = false)
    (run : insertLines false howmany v diffs = .ok (v', rest)) : Inserted v v' diffs rest howmany :=
  by
  induction howmany generalizing v diffs with
  | zero =>
    cases run
    refine ⟨⟨[],(append_nil _).symm,nofun, ?_⟩, rfl,rfl,rfl,rfl,rfl,
      rfl,?_⟩
    · intro missing
      exact absurd (clear.symm.trans missing) Bool.false_ne_true
    · intro missing
      exact absurd (clear.symm.trans missing) Bool.false_ne_true
  | succ howmany ih =>
    cases diffs with
    | nil =>
      cases run
    | cons b diffs =>
      unfold insertLines at run
      split at run
      · cases run
      rename_i broken
      have one : Ended b ∨ Unended b := lined.mem mem_cons_self
      have clean := clean_line v.noLf one
      rcases lined.cases_cons with ⟨unended,rfl⟩ | ⟨ended,later⟩
      · -- the line without a newline ends the script
        cases howmany with
        | succ howmany => exact absurd ⟨unended.last,Or.inr (Nat.succ_ne_zero _)⟩ broken
        | zero =>
          cases run
          refine ⟨⟨[_],rfl,forall_mem_singleton.mpr clean,fun missing => ⟨_,rfl,?_⟩⟩, rfl,rfl,
            rfl,rfl,rfl,rfl,fun _ => rfl⟩
          have whole : chomp b = b := if_neg unended.last
          have kept : dropCR (chomp b) = chomp b := by
            have both := (Bool.and_eq_true _ _).mp missing
            exact eq_of_beq both.2
          change fixCntlA (dropCR (chomp b)) ≠ []
          rw [kept,whole]
          intro empty
          unfold fixCntlA at empty
          split at empty
          · cases empty
          · exact unended.filled empty
      · have still : (insertLine false v.noLf b).2 = false := by
          change ((v.noLf || b.getLast? != some newline) && _) = false
          rw [clear,ended.last,Bool.false_or,bne_self_eq_false,Bool.false_and]
        have done := ih later still run
        obtain ⟨bufs,wrote,cleans,marked⟩ := done.bufs
        refine ⟨⟨_ :: bufs,?_,forall_mem_cons.mpr ⟨clean,cleans⟩,fun missing => ?_⟩, done.script,
          done.weave,done.plain,done.addthis,done.lastdel,done.fixdel,done.last⟩
        · rw [wrote,map_cons]
          change (v.w.out ++ [Line.data _]) ++ bufs.map Line.data = _
          rw [append_assoc,singleton_append]
        · obtain ⟨buf,found,filled⟩ := marked missing
          refine ⟨buf,?_,filled⟩
          rw [getLast?_cons,found]
          rfl

end BitKeeper.Weave
