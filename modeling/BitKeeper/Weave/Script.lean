import BitKeeper.Weave.Moves

/-!
`weaveDiffs` reads an RCS script the way its reader does, so the check-in of a script that applies to
its version gives the old weave with the blocks of the new delta in it.
-/

namespace BitKeeper.Weave

open List Bytes Ndiff Option

inductive Script : List Bytes → List Command → Prop
  | nil : Script [] []
  | delete {b : Bytes} {line count : Nat} {rest : List Bytes} {script : List Command}
      (head : readCommand b = some (100, line, count)) (tail : Script rest script) :
      Script (b :: rest) (.delete line count :: script)
  | append {b : Bytes} {line : Nat} {text rest : List Bytes} {script : List Command}
      (head : readCommand b = some (97, line, text.length)) (tail : Script rest script) :
      Script (b :: (text ++ rest)) (.append line text :: script)

variable {script : List Command}

private theorem readCommands_script {diffs : List Bytes} {wanted : Nat} {text : List Bytes}
    (read : readCommands diffs wanted = some (text, script)) :
    ∃ rest, diffs = text ++ rest ∧ text.length = wanted ∧ Script rest script := by
  induction diffs generalizing wanted text script with
  | nil =>
    unfold readCommands at read
    split at read
    next zero =>
      cases read
      exact ⟨[],rfl,zero.symm,.nil⟩
    next => cases read
  | cons b diffs ih =>
    cases wanted with
    | succ wanted =>
      obtain ⟨inner,found,same⟩ := map_eq_some_iff.mp read
      cases same
      obtain ⟨rest,whole,size,script⟩ := ih found
      exact ⟨rest,by rw [whole]; rfl,by rw [length_cons,size],script⟩
    | zero =>
      obtain ⟨⟨letter,line,count⟩,head,read⟩ := bind_eq_some_iff.mp read
      dsimp only at read
      split at read
      next delete =>
        obtain ⟨inner,found,same⟩ := map_eq_some_iff.mp read
        cases same
        obtain ⟨rest,whole,size,script⟩ := ih found
        rw [length_eq_zero_iff.mp size,nil_append] at whole
        rw [delete] at head
        exact ⟨b :: diffs,rfl,rfl,whole ▸ .delete head script⟩
      next =>
        split at read
        next append =>
          obtain ⟨inner,found,same⟩ := map_eq_some_iff.mp read
          cases same
          obtain ⟨rest,whole,size,script⟩ := ih found
          rw [append,← size] at head
          exact ⟨b :: diffs,rfl,rfl,whole ▸ .append head script⟩
        next => cases read

theorem readRCS_script {diffs : Bytes} (read : readRCS diffs = some script) :
    Script (lines diffs) script := by
  obtain ⟨whole,found,same⟩ := map_eq_some_iff.mp read
  obtain ⟨text,commands⟩ := whole
  cases same
  obtain ⟨rest,cut,size,script⟩ := readCommands_script found
  rw [length_eq_zero_iff.mp size,nil_append] at cut
  rwa [cut]

private theorem fgetline_command {body digits : Bytes} (filled : digits ≠ [])
    (numbers : ∀ c ∈ digits, isDigit c = true) :
    fgetline (body ++ (digits ++ [newline])) = body ++ digits := by
  unfold fgetline
  rw [← append_assoc,rdropWhile_concat_pos _ _ _ (by decide)]
  refine rdropWhile_eq_self_iff.mpr fun some_ => ?_
  rw [getLast_append_of_ne_nil some_ filled]
  have number := numbers _ (getLast_mem filled)
  intro blank
  rcases (Bool.or_eq_true _ _).mp blank with same | same
  · rw [eq_of_beq same] at number
    exact absurd number (by decide)
  · rw [eq_of_beq same] at number
    exact absurd number (by decide)

theorem scandiff_eq {b : Bytes} {letter : UInt8} {line count : Nat} {what : What}
    (read : readCommand b = some (letter, line, count)) (known : What.ofLetter letter = some what) :
    scandiff (fgetline b) = some ⟨what,line,count⟩ := by
  obtain ⟨first,head,read⟩ := bind_eq_some_iff.mp read
  obtain ⟨⟨place,behind⟩,number,read⟩ := bind_eq_some_iff.mp read
  obtain ⟨s,blank,read⟩ := bind_eq_some_iff.mp read
  obtain ⟨⟨howmany,ends⟩,counted,read⟩ := bind_eq_some_iff.mp read
  dsimp only at blank read
  split at read
  next last =>
    cases read
    obtain ⟨digits,_,_,tail,reread⟩ := readDecimal_eq_some number
    obtain ⟨digits',filled',numbers',rest,recount⟩ := readDecimal_eq_some counted
    rw [expect_eq_some blank,rest,last] at tail
    have whole : b = (letter :: digits ++ [32]) ++ (digits' ++ [newline]) := by
      cases b with
      | nil => cases head
      | cons c b =>
        cases head
        change b = _ at tail
        rw [tail,append_assoc,cons_append]
        rfl
    rw [whole,fgetline_command filled' numbers']
    change ((What.ofLetter letter).bind _) = _
    rw [known,bind_some,append_assoc,cons_append,tail_cons,singleton_append,
      reread (32 :: digits') (by intro c same; cases same; decide),bind_some]
    change ((expect [32] ([32] ++ digits')).bind _) = _
    rw [expect_append,bind_some]
    have again := recount [] (fun c impossible => absurd impossible (by simp))
    rw [append_nil] at again
    rw [again,bind_some]
    exact if_pos rfl
  · cases read

def lastDelete : Nat → List Command → Nat
  | last, [] => last
  | _, .delete line _ :: script => lastDelete line script
  | _, .append _ _ :: script => lastDelete 0 script

variable {n : Nat} {v v' : Weaving} {place : Nat}

theorem weaveDeleteAt_fields {howmany : Nat} (run : weaveDeleteAt n v place howmany = .ok v') :
    v'.lastdel = v.lastdel ∧ v'.fixdel = v.fixdel ∧ (v.fixdel = 0 → v'.addthis = v.addthis) := by
  obtain ⟨w,_,run⟩ := bind_ok run
  obtain ⟨addthis,taken,run⟩ := bind_ok run
  obtain ⟨w1,_,run⟩ := bind_ok run
  cases run
  refine ⟨rfl,rfl,fun unfixed => ?_⟩
  unfold dupLine at taken
  rw [if_neg fun fixed => fixed.1 unfixed] at taken
  exact (Except.ok.inj taken).symm

theorem weaveDelete_fields {howmany : Nat} (run : weaveDelete n v .d place howmany = .ok v') :
    v'.lastdel = place ∧ (v.fixdel = 0 → v'.fixdel = 0 ∧ v'.addthis = v.addthis) := by
  unfold weaveDelete at run
  rw [if_pos rfl] at run
  split at run
  next fixed =>
    exact ⟨(weaveDeleteAt_fields run).1,fun unfixed => absurd unfixed fixed.1⟩
  · obtain ⟨last,fix,same⟩ := weaveDeleteAt_fields run
    exact ⟨last,fun unfixed => ⟨fix.trans unfixed,same unfixed⟩⟩

structure Left (n : Nat) (weave : List Line) (script : List Command) (v v' : Weaving) : Prop where
  tracks : ∃ phase, phase ≠ .deleting ∧ Tracks n weave phase v'.w ∧ (phase = .done → v'.lastdel = 0)
  addthis : ∀ buf, v'.addthis = some buf → .data buf ∈ weave
  lastdel : v'.lastdel = lastDelete v.lastdel script
  unfixed : v.fixdel = 0 → v'.addthis = v.addthis

theorem weaveInsert_between {weave : List Line} (between : Between n weave v)
    {text rest left : List Bytes} (lined : Lined (text ++ rest))
    (run : weaveInsert n v .a place text.length (text ++ rest) = .ok (v', left)) :
    left = rest ∧ v'.lastdel = 0 ∧ v'.fixdel = v.fixdel ∧ v'.addthis = v.addthis ∧
      (Between n weave v' ∨ rest = [] ∧ Tracks n weave .done v'.w) := by
  obtain ⟨w,moved,run⟩ := bind_ok run
  obtain ⟨⟨v1,after⟩,inserted,run⟩ := bind_ok run
  cases run
  have done := insertLines_inserted lined rfl inserted
  have script : after = rest := by rw [done.script,drop_left]
  have before := between.tracks.move moved
  obtain ⟨read,whole,edit⟩ := before.edit
  obtain ⟨bufs,wrote,clean,marked⟩ := done.bufs
  have plain : v1.w.wmap = id := done.plain.trans before.plain
  have wrote' : v1.w.out ++ [.ctrl .fin n v1.noLf] =
      w.out ++ .ctrl .ins n false :: bufs.map .data ++ [.ctrl .fin n v1.noLf] := by
    rw [wrote]
    change (w.out ++ [Line.ctrl .ins n false]) ++ bufs.map Line.data ++ _ = _
    rw [append_assoc w.out,singleton_append]
  have all : read ++ v1.w.weave = weave := by
    rwa [done.weave]
  refine ⟨script,done.lastdel,done.fixdel,done.addthis,?_⟩
  cases missing : v1.noLf with
  | false =>
    rw [missing] at wrote'
    refine .inl ⟨⟨plain,read,all,?_⟩,fun buf found => between.addthis buf (done.addthis ▸ found)⟩
    change Edit n .copying read (v1.w.out ++ [.ctrl .fin n false])
    rw [wrote']
    exact .block edit clean
  | true =>
    rw [missing] at wrote'
    obtain ⟨buf,ends,filled⟩ := marked missing
    refine .inr ⟨script ▸ done.last missing,plain,read,all,?_⟩
    change Edit n .done read (v1.w.out ++ [.ctrl .fin n true])
    rw [wrote']
    exact .last edit clean ends filled

theorem weaveCommands_left {weave : List Line} {diffs : List Bytes} (commands : Script diffs script)
    (lined : Lined diffs) {fuel : Nat} (between : Between n weave v)
    (run : weaveCommands n fuel v diffs = .ok v') : Left n weave script v v' := by
  induction commands generalizing fuel v with
  | nil =>
    unfold weaveCommands at run
    cases run
    exact ⟨⟨.copying,by decide,between.tracks,fun impossible => absurd impossible (by decide)⟩,
      between.addthis,rfl,fun _ => rfl⟩
  | @delete b line count rest script head tail ih =>
    cases fuel with
    | zero => cases run
    | succ fuel =>
      unfold weaveCommands at run
      rw [scandiff_eq head (show What.ofLetter 100 = some .d from rfl)] at run
      dsimp only at run
      rw [if_pos (.inl rfl)] at run
      obtain ⟨v1,deleted,run⟩ := bind_ok run
      obtain ⟨last,unfixed⟩ := weaveDelete_fields deleted
      have lined' : Lined rest := (show Lined ([b] ++ rest) from lined).behind
      have left := ih lined' (weaveDelete_between between deleted) run
      refine ⟨left.tracks,left.addthis,?_,fun clear => ?_⟩
      · rw [left.lastdel,last]
        rfl
      · rw [left.unfixed (unfixed clear).1,(unfixed clear).2]
  | @append b line text rest script head tail ih =>
    cases fuel with
    | zero => cases run
    | succ fuel =>
      unfold weaveCommands at run
      rw [scandiff_eq head (show What.ofLetter 97 = some .a from rfl)] at run
      dsimp only at run
      rw [if_neg (by decide)] at run
      obtain ⟨⟨v1,after⟩,inserted,later⟩ := bind_ok run
      have behind : Lined (text ++ rest) := (show Lined ([b] ++ (text ++ rest)) from lined).behind
      obtain ⟨script_,last,fix,same,state⟩ := weaveInsert_between between behind inserted
      rw [script_] at later
      rcases state with going | ⟨rfl,tracks⟩
      · have left := ih behind.behind going later
        refine ⟨left.tracks,left.addthis,?_,fun clear => ?_⟩
        · rw [left.lastdel,last]
          rfl
        · rw [left.unfixed (fix.trans clear),same]
      · cases tail
        unfold weaveCommands at later
        cases later
        refine ⟨⟨.done,by decide,tracks,fun _ => last⟩,
          fun buf found => between.addthis buf (same ▸ found), last,fun _ => same⟩

end BitKeeper.Weave
