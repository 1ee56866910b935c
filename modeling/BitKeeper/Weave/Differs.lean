import BitKeeper.Weave.Built

/-!
`_hasDiffs` against `get_reg`: as long as they agree, the lines that were read are the lines that were
written, and what is left open is only the newline of the last one. The end of a block marked `N`
turns the flag around; nothing of that delta follows.
-/

namespace BitKeeper.Weave

open List Function Bytes

structure Reads (slist : Nat → Bool) (weave : List Line) (state : List Entry) (last : Nat → Bytes)
    (r : Reading) : Prop where
  state_eq : r.state = state
  print_eq : r.print = printstate slist state
  pending : r.lfPend ≠ 0 → r.texts.getLast? = some (unescape (last r.lfPend)) ∧
    (⟨r.lfPend,true⟩ ∈ state ∨ .ctrl .fin r.lfPend true ∈ weave)
  plain : ∀ text ∈ r.texts, newline ∉ text ∧ dropCR text = text

variable {slist : Nat → Bool} {weave : List Line} {state : List Entry} {last : Nat → Bytes}
  {r : Reading}

theorem Reads.here (reads : Reads slist weave state last r) (shown : r.print ≠ 0) :
    r.print = whatstate state := by
  rw [reads.print_eq] at shown ⊢
  exact ((printstate_cases slist state).resolve_left shown).1

theorem Sound.sealed_other (sound : Sound weave state last) {p : Nat}
    (sealed : .ctrl .fin p true ∈ weave) (inside : whatstate state ≠ 0) : p ≠ whatstate state := by
  rintro rfl
  exact (sound.sealed sealed).1 (mem_map.mpr ⟨_,whatstate_mem inside,rfl⟩)

variable {r' : Reading}

theorem Reads.data {buf : Bytes} (reads : Reads slist weave state last r)
    (inside : whatstate state ≠ 0) (clean : Clean buf)
    (step : readLine slist r (.data buf) = some r') :
    Reads slist (weave ++ [.data buf]) state (update last (whatstate state) buf) r' := by
  unfold readLine at step
  dsimp only at step
  split at step
  · cases step
    split
    · exact ⟨reads.state_eq,reads.print_eq,(absurd rfl ·), reads.plain⟩
    rename_i same
    refine ⟨reads.state_eq,reads.print_eq,fun pending => ?_, reads.plain⟩
    obtain ⟨text,place⟩ := reads.pending pending
    have other : r.lfPend ≠ whatstate state := fun equal => same ⟨pending,reads.state_eq.symm ▸ equal⟩
    rw [update_of_ne other]
    exact ⟨text,place.imp_right (mem_append_left _)⟩
  next hidden =>
    cases step
    have here := reads.here hidden
    refine ⟨reads.state_eq,reads.print_eq,fun _ => ⟨?_,.inl ?_⟩, fun text listed => ?_⟩
    · rw [getLast?_concat,here,update_self]
    · rw [here]
      exact whatstate_mem inside
    · rcases mem_append.mp listed with early | new
      · exact reads.plain text early
      · obtain ⟨line,rfl,kept,plain⟩ := clean
        rw [mem_singleton.mp new,unescape_fixCntlA]
        exact ⟨plain,kept⟩

theorem Reads.ctrl {state' : List Entry} {type : Kind} {serial : Nat} {nonl : Bool}
    (sound : Sound weave state last) (reads : Reads slist weave state last r)
    (fresh : type ≠ .fin → serial ∉ state.map Entry.ser)
    (moved : changestate type serial state = some state')
    (step : readLine slist r (.ctrl type serial nonl) = some r') :
    Reads slist (weave ++ [.ctrl type serial nonl]) state' last r' := by
  unfold readLine at step
  dsimp only at step
  rw [reads.state_eq,moved] at step
  split at step
  · cases step
    exact ⟨rfl,rfl,(absurd rfl ·), reads.plain⟩
  rename_i ends
  cases step
  refine ⟨rfl,rfl,fun pending => ?_, reads.plain⟩
  obtain ⟨text,place⟩ := reads.pending pending
  refine ⟨text,?_⟩
  rcases place with open_ | sealed
  · by_cases same : r.lfPend = serial
    · -- the open block itself ends, and so it ends marked
      have closes : type = .fin := by
        by_contra opens
        exact fresh opens (mem_map.mpr ⟨_,open_,same⟩)
      rw [closes] at moved
      have what := whatstate_of_close sound.ordered moved (same ▸ open_)
      have mark : nonl = true := by
        cases nonl with
        | true => rfl
        | false => exact absurd ⟨closes,same,what,rfl⟩ ends
      refine .inr (mem_append_right _ (mem_singleton.mpr ?_))
      rw [closes,mark]
      exact congrArg (Line.ctrl .fin · true) same
    · exact .inl (mem_changestate_other moved open_ same)
  · exact .inr (mem_append_left _ sealed)

def endLines (texts : List Bytes) (pending : Bool) : List Bytes :=
  if pending then texts.dropLast.map (· ++ [newline]) ++ texts.getLast?.toList else
    texts.map (· ++ [newline])

private theorem render_eq (texts : List Bytes) (pending : Bool) :
    render [newline] texts pending = (endLines texts pending).flatten := by
  unfold render endLines
  cases pending with
  | false => rfl
  | true =>
    rw [if_pos rfl,if_pos rfl,flatten_append]
    cases ends : texts.getLast? with
    | none =>
      rw [getLastD_eq_getLast?,ends]
      rfl
    | some text =>
      rw [getLastD_eq_getLast?,ends]
      exact congrArg _ (append_nil text).symm

variable {texts : List Bytes} {pending : Bool}

theorem lined_endLines (plain : ∀ text ∈ texts, newline ∉ text)
    (filled : pending = true → ∃ text, texts.getLast? = some text ∧ text ≠ []) :
    Lined (endLines texts pending) := by
  have ended : ∀ {list : List Bytes}, (∀ text ∈ list, newline ∉ text) →
      ∀ line ∈ list.map (· ++ [newline]), Ended line := by
    intro list plain line inside
    obtain ⟨text,listed,rfl⟩ := mem_map.mp inside
    exact ended_concat (plain text listed)
  unfold endLines
  cases pending with
  | false =>
    have whole := Lined.append (ended plain) .nil
    rwa [append_nil] at whole
  | true =>
    obtain ⟨text,ends,some_⟩ := filled rfl
    rw [if_pos rfl,ends]
    refine .append (ended fun other inside => plain other (dropLast_subset texts inside))
      (.last ⟨some_,?_⟩)
    exact plain text (mem_of_getLast? ends)

variable {text : Bytes}

private theorem chomp_ended : chomp (text ++ [newline]) = text := by
  unfold chomp
  rw [if_pos getLast?_concat,dropLast_concat]

theorem chomp_plain (plain : newline ∉ text) : chomp text = text :=
  if_neg fun last => plain (mem_of_getLast? last)

theorem map_chomp_endLines (plain : ∀ text ∈ texts, newline ∉ text) (pending : Bool) :
    (endLines texts pending).map chomp = texts := by
  have ended : ∀ list : List Bytes, (list.map (· ++ [newline])).map chomp = list := by
    intro list
    rw [map_map]
    exact map_id'' (fun text => chomp_ended) list
  unfold endLines
  cases pending with
  | false => exact ended texts
  | true =>
    rw [if_pos rfl,map_append,ended]
    cases ends : texts.getLast? with
    | none => rw [getLast?_eq_none_iff.mp ends]; rfl
    | some text =>
      obtain ⟨before,rfl⟩ := getLast?_eq_some_iff.mp ends
      rw [dropLast_concat]
      change before ++ [chomp text] = _
      rw [chomp_plain (plain text (mem_append_right _ (mem_singleton.mpr rfl)))]

def misses (list : List Bytes) : Bool := list.getLast?.any fun line => line.getLast? != some newline

theorem misses_ended (texts : List Bytes) : misses (texts.map (· ++ [newline])) = false := by
  unfold misses
  rw [getLast?_map]
  cases texts.getLast? with
  | none => rfl
  | some text =>
    change ((text ++ [newline]).getLast? != some newline) = false
    rw [getLast?_concat,bne_self_eq_false]

theorem misses_front {list rest : List Bytes} (lined : Lined (list ++ rest)) (more : rest ≠ []) :
    misses list = false := by
  unfold misses
  cases found : list.getLast? with
  | none => rfl
  | some line =>
    change (line.getLast? != some newline) = false
    rw [(lined.ended more line (mem_of_getLast? found)).last,bne_self_eq_false]

theorem eq_endLines {list : List Bytes} (lined : Lined list) (same : list.map chomp = texts) :
    list = endLines texts (misses list) := by
  rw [← same]
  rcases eq_nil_or_concat list with rfl | ⟨before,line,rfl⟩
  · rfl
  rw [concat_eq_append] at *
  have early : before.map (fun line => chomp line ++ [newline]) = before := by
    refine (map_congr_left fun other inside => ?_).trans (map_id before)
    have ended := lined.ended (cons_ne_nil _ _) other inside
    change chomp other ++ [newline] = other
    rw [show chomp other = other.dropLast from if_pos ended.last,← ended.split]
  have ends : misses (before ++ [line]) = (line.getLast? != some newline) := by
    unfold misses
    rw [getLast?_concat]
    rfl
  rw [ends]
  unfold endLines
  rw [map_append,map_singleton,dropLast_concat,getLast?_concat,map_append,map_map]
  rcases lined.mem (mem_append_right before (mem_singleton.mpr rfl)) with ended | unended
  · rw [ended.last,bne_self_eq_false,if_neg Bool.false_ne_true,map_singleton,
      show chomp line = line.dropLast from if_pos ended.last,← ended.split]
    exact congrArg (· ++ [line]) early.symm
  · rw [bne_iff_ne.mpr unended.last,if_pos rfl,chomp_plain unended.none_]
    exact congrArg (· ++ [line]) early.symm

structure Extends (r r' : Reading) : Prop where
  texts : r.texts <+: r'.texts
  ended : r.lfPend = 0 → r'.texts.length = r.texts.length → r'.lfPend = 0

theorem readLine_extends {line : Line} (step : readLine slist r line = some r') : Extends r r' := by
  unfold readLine at step
  cases line with
  | data buf =>
    dsimp only at step
    split at step
    · cases step
      split
      · exact ⟨prefix_refl _,fun _ _ => rfl⟩
      · exact ⟨prefix_refl _,fun zero _ => zero⟩
    · cases step
      refine ⟨prefix_append _ _,fun _ size => ?_⟩
      rw [length_append,length_singleton] at size
      omega
  | ctrl type serial nonl =>
    obtain ⟨state,_,rfl⟩ := Option.map_eq_some_iff.mp step
    refine ⟨prefix_refl _,fun zero _ => ?_⟩
    rw [zero]
    exact ite_self 0

theorem Extends.trans {a b c : Reading} (first : Extends a b) (second : Extends b c) :
    Extends a c := by
  refine ⟨first.texts.trans second.texts,fun zero size => ?_⟩
  have up := first.texts.length_le
  have up' := second.texts.length_le
  exact second.ended (first.ended zero (by omega)) (by omega)

def Off (glines : List Bytes) (r : Reading) : Prop :=
  ∀ r', Extends r r' → (∀ text ∈ r'.texts, newline ∉ text) →
    glines ≠ endLines r'.texts (r'.lfPend != 0)

structure Agree (glines : List Bytes) (weave : List Line) (state : List Entry) (r : Reading)
    (c : Compare) : Prop where
  state_eq : c.state = state
  print_eq : c.print = r.print
  read : ∃ read, glines = read ++ c.gfile ∧ read.map chomp = r.texts ∧
    c.noLf = (misses read ^^ (r.lfPend != 0 && c.lfPend == 0))
  waits : c.lfPend ≠ 0 → c.lfPend = r.lfPend ∧ ⟨r.lfPend,true⟩ ∈ state
  sealed : c.lfPend = 0 → r.lfPend ≠ 0 → .ctrl .fin r.lfPend true ∈ weave

inductive Follows (glines : List Bytes) (weave : List Line) (state : List Entry) (r : Reading) :
    Except Stop Compare → Prop
  | same {c : Compare} (agree : Agree glines weave state r c) : Follows glines weave state r (.ok c)
  | off (off : Off glines r) : Follows glines weave state r (.error (.ret 1))

theorem dropCR_none {line : Bytes} (noCr : cr ∉ line) : dropCR line = line := by
  refine rdropWhile_eq_self_iff.mpr fun filled last => noCr ?_
  rw [← eq_of_beq last]
  exact getLast_mem filled

private theorem sameLine_iff {gline : Bytes} (noNul : 0 ∉ gline) (noCr : cr ∉ gline)
    (kept : dropCR text = text) :
    sameLine gline text = true ↔ chomp gline = text := by
  have part : chomp gline ⊆ gline := by
    unfold chomp
    split
    · exact dropLast_subset gline
    · exact List.Subset.refl _
  have whole : dropCR (chomp gline) = chomp gline := dropCR_none fun inside => noCr (part inside)
  unfold sameLine
  rw [kept,whole,Bool.and_eq_true,beq_iff_eq,beq_iff_eq]
  constructor
  · rintro ⟨size,equal⟩
    have clean : ∀ x ∈ chomp gline, x ≠ 0 := fun x inside zero => noNul (zero ▸ part inside)
    have taken :=
      (strncmp_order clean (show text.length = min (chomp gline).length text.length by omega)).2
      equal
    rwa [take_length,take_of_length_le (le_of_eq size.symm)] at taken
  · rintro rfl
    exact ⟨rfl,strncmp_self _ _⟩

private theorem missesLf_eq {gline : Bytes} (noCr : cr ∉ gline) :
    missesLf gline = (gline.getLast? != some newline) := by
  unfold missesLf
  by_cases ends : gline.getLast? = some newline
  · rw [ends,bne_self_eq_false,Bool.false_and]
  · rw [show chomp gline = gline from if_neg ends,dropCR_none noCr,beq_self_eq_true,Bool.and_true]

section Steps

variable {slist : Nat → Bool} {glines : List Bytes} {weave : List Line} {state : List Entry}
  {last : Nat → Bytes}
  {r r' : Reading} {c : Compare}

theorem off_of_text (plainTexts : ∀ r', Extends r r' → glines.map chomp ≠ r'.texts) :
    Off glines r := by
  intro r' further plain same
  refine plainTexts r' further ?_
  rw [same]
  exact map_chomp_endLines plain _

theorem follows_hidden {buf : Bytes} (sound : Sound weave state last) (inside : whatstate state ≠ 0)
    (reads : Reads slist weave state last r) (agree : Agree glines weave state r c)
    (hidden : r.print = 0) (step : readLine slist r (.data buf) = some r') :
    Follows glines (weave ++ [.data buf]) state r' (compareLine slist c (.data buf)) := by
  unfold readLine at step
  unfold compareLine
  dsimp only at step ⊢
  rw [if_pos hidden,reads.state_eq] at step
  rw [agree.print_eq,if_pos hidden,agree.state_eq]
  cases step
  obtain ⟨read,whole,texts,flag⟩ := agree.read
  refine .same ?_
  by_cases waiting : c.lfPend = 0
  · rw [if_neg fun both : c.lfPend ≠ 0 ∧ c.lfPend = whatstate state => both.1 waiting]
    have other : ¬ (r.lfPend ≠ 0 ∧ r.lfPend = whatstate state) := fun both =>
      sound.sealed_other (agree.sealed waiting both.1) inside both.2
    rw [if_neg other]
    exact ⟨agree.state_eq,agree.print_eq,agree.read,agree.waits,
      fun zero pending => mem_append_left _ (agree.sealed zero pending)⟩
  · obtain ⟨same,open_⟩ := agree.waits waiting
    rw [← same]
    by_cases here : c.lfPend ≠ 0 ∧ c.lfPend = whatstate state
    · rw [if_pos here,if_pos here]
      refine ⟨rfl,rfl,⟨read,whole,texts,?_⟩,(absurd rfl ·),
        fun _ impossible => absurd rfl impossible⟩
      rw [flag,beq_eq_false_iff_ne.mpr waiting,Bool.and_false]
      rfl
    · rw [if_neg here,if_neg here]
      exact ⟨agree.state_eq,agree.print_eq,agree.read,agree.waits,fun zero => absurd zero waiting⟩

theorem follows_shown {buf : Bytes} (noNul : ∀ gline ∈ glines, 0 ∉ gline)
    (noCr : ∀ gline ∈ glines, cr ∉ gline) (inside : whatstate state ≠ 0) (clean : Clean buf)
    (reads : Reads slist weave state last r) (agree : Agree glines weave state r c)
    (shown : r.print ≠ 0) (step : readLine slist r (.data buf) = some r') :
    Follows glines (weave ++ [.data buf]) state r' (compareLine slist c (.data buf)) := by
  have grows : r'.texts = r.texts ++ [unescape buf] ∧ r'.lfPend = r.print ∧ r'.print = r.print := by
    unfold readLine at step
    dsimp only at step
    rw [if_neg shown] at step
    cases step
    exact ⟨rfl,rfl,rfl⟩
  obtain ⟨texts',pend',print'⟩ := grows
  obtain ⟨read,whole,texts,_⟩ := agree.read
  unfold compareLine
  dsimp only
  rw [agree.print_eq,if_neg shown]
  cases left : c.gfile with
  | nil =>
    refine .off (off_of_text fun next further same => ?_)
    have longer := further.texts.length_le
    rw [texts',length_append,← same,whole,left,append_nil,texts,length_singleton] at longer
    omega
  | cons gline gfile =>
    rw [left] at whole
    have listed : gline ∈ glines := by
      rw [whole]
      exact mem_append_right _ mem_cons_self
    obtain ⟨line,rfl,kept,plain⟩ := clean
    rw [unescape_fixCntlA] at *
    have compared := sameLine_iff (noNul gline listed) (noCr gline listed) kept
    dsimp only
    split
    next same =>
      refine .same ⟨agree.state_eq,print'.symm,⟨read ++ [gline],?_,?_,?_⟩,fun _ => ⟨?_,?_⟩, ?_⟩
      · rw [whole,append_assoc,singleton_append]
      · rw [map_append,texts,map_singleton,compared.mp same,texts']
      · unfold misses
        rw [missesLf_eq (noCr gline listed),getLast?_concat,beq_eq_false_iff_ne.mpr shown,
          Bool.and_false,Bool.xor_false]
        rfl
      · exact pend'.symm
      · rw [pend',reads.here shown]
        exact whatstate_mem inside
      · intro zero
        exact absurd zero shown
    next same =>
      refine .off (off_of_text fun next further equal => same (compared.mpr ?_))
      obtain ⟨tail,cut⟩ := further.texts
      rw [← cut,texts',whole,map_append,texts,append_assoc,map_cons] at equal
      exact (List.cons.inj (append_cancel_left equal)).1

private theorem follows_ctrl {type : Kind} {serial : Nat} {nonl : Bool} {state' : List Entry}
    (lined : Lined glines) (sound : Sound weave state last) (reads : Reads slist weave state last r)
    (agree : Agree glines weave state r c) (real : serial ≠ 0)
    (unsealed : .ctrl .fin serial true ∉ weave) (fresh : type ≠ .fin → serial ∉ state.map Entry.ser)
    (moved : changestate type serial state = some state')
    (step : readLine slist r (.ctrl type serial nonl) = some r') :
    Follows glines (weave ++ [.ctrl type serial nonl]) state' r'
      (compareLine slist c (.ctrl type serial nonl)) := by
  obtain ⟨read,whole,texts,flag⟩ := agree.read
  unfold readLine at step
  unfold compareLine
  dsimp only at step ⊢
  rw [reads.state_eq,moved] at step
  rw [agree.state_eq,moved]
  by_cases ends : type = .fin ∧ c.lfPend = serial ∧ whatstate state = serial
  · -- the block of the line that waits ends here
    obtain ⟨closes,pend,what⟩ := ends
    have waiting : c.lfPend ≠ 0 := pend ▸ real
    obtain ⟨same,_⟩ := agree.waits waiting
    have pend' : r.lfPend = serial := same ▸ pend
    rw [beq_eq_false_iff_ne.mpr waiting,Bool.and_false,Bool.xor_false] at flag
    cases nonl with
    | true =>
      rw [if_neg fun all => absurd all.2.2.2 Bool.true_eq_false.mp] at step
      cases step
      rw [if_neg fun all => absurd all.2.2.2.1 Bool.true_eq_false.mp]
      refine .same ⟨rfl,rfl,⟨read,whole,texts,?_⟩,fun impossible => ?_, fun _ _ => ?_⟩
      · change (if _ then !c.noLf else c.noLf) =
          (misses read ^^ (r.lfPend != 0 && (if _ then 0 else c.lfPend) == 0))
        rw [if_pos ⟨closes,pend,what,rfl⟩,if_pos ⟨closes,pend,what⟩,flag,pend',bne_iff_ne.mpr real]
        exact (Bool.xor_true _).symm
      · rw [if_pos ⟨closes,pend,what⟩] at impossible
        exact absurd rfl impossible
      · refine mem_append_right _ (mem_singleton.mpr ?_)
        rw [closes]
        exact congrArg (Line.ctrl .fin · true) pend'
    | false =>
      rw [if_pos ⟨closes,pend',what,rfl⟩] at step
      cases step
      by_cases missing : c.noLf = true
      · rw [if_pos ⟨closes,pend,what,rfl,missing⟩]
        refine .off fun next further plain equal => ?_
        have size := congrArg List.length (map_chomp_endLines plain (next.lfPend != 0))
        rw [← equal,length_map] at size
        have unended := flag.symm.trans missing
        have empty : c.gfile = [] := by
          by_contra more
          rw [whole] at lined
          exact Bool.false_ne_true ((misses_front lined more).symm.trans unended)
        rw [empty,append_nil] at whole
        have done := further.ended rfl (by
          rw [← size,← texts,length_map,whole])
        rw [done] at equal
        rw [← whole,equal] at unended
        exact Bool.false_ne_true ((misses_ended next.texts).symm.trans unended)
      · rw [if_neg fun all => missing all.2.2.2.2]
        refine .same ⟨rfl,rfl,⟨read,whole,texts,?_⟩,fun impossible => ?_,
          fun _ impossible => absurd rfl impossible⟩
        · change (if _ then !c.noLf else c.noLf) = (misses read ^^ (false && _))
          rw [if_neg fun all => absurd all.2.2.2 Bool.false_ne_true, flag,Bool.false_and,
            Bool.xor_false]
        · rw [if_pos ⟨closes,pend,what⟩] at impossible
          exact absurd rfl impossible
  · -- another block: nothing changes for the line that waits
    have still : ¬ (type = .fin ∧ r.lfPend = serial ∧ whatstate state = serial ∧ nonl = false) := by
      intro all
      by_cases waiting : c.lfPend = 0
      · have sealed := agree.sealed waiting (all.2.1 ▸ real)
        rw [all.2.1] at sealed
        exact unsealed sealed
      · exact ends ⟨all.1,(agree.waits waiting).1.trans all.2.1,all.2.2.1⟩
    rw [if_neg still] at step
    cases step
    rw [if_neg fun all => ends ⟨all.1,all.2.1,all.2.2.1⟩]
    rw [if_neg ends,if_neg fun all => ends ⟨all.1,all.2.1,all.2.2.1⟩]
    refine .same ⟨rfl,rfl,agree.read,fun waiting => ?_, fun zero pending => ?_⟩
    · obtain ⟨same,open_⟩ := agree.waits waiting
      refine ⟨same,mem_changestate_other moved open_ fun equal => ends ?_⟩
      have closes : type = .fin := by
        by_contra opens
        exact fresh opens (mem_map.mpr ⟨_,open_,equal⟩)
      refine ⟨closes,same.trans equal,?_⟩
      rw [closes] at moved
      exact whatstate_of_close sound.ordered moved ((show r.lfPend = serial from equal) ▸ open_)
    · exact mem_append_left _ (agree.sealed zero pending)

end Steps

def comparing (slist : Nat → Bool) (glines : List Bytes) (weave : List Line) : Except Stop Compare :=
  weave.foldlM (compareLine slist) { gfile := glines }

theorem comparing_concat (slist : Nat → Bool) (glines : List Bytes) (weave : List Line)
    (line : Line) :
    comparing slist glines (weave ++ [line]) = (comparing slist glines weave).bind fun c =>
      compareLine slist c line := by
  unfold comparing
  rw [foldlM_append]
  cases weave.foldlM (compareLine slist) { gfile := glines } with
  | error stop => rfl
  | ok c =>
    change (compareLine slist c line).bind .ok = compareLine slist c line
    cases compareLine slist c line with
    | error stop => rfl
    | ok next => rfl

variable {glines : List Bytes} {outcome : Except Stop Compare}

theorem Follows.step {state' : List Entry} {line : Line}
    (follows : Follows glines weave state r outcome) (step : readLine slist r line = some r')
    (next : ∀ c, Agree glines weave state r c →
      Follows glines (weave ++ [line]) state' r' (compareLine slist c line)) :
    Follows glines (weave ++ [line]) state' r' (outcome.bind fun c => compareLine slist c line) := by
  cases follows with
  | same agree => exact next _ agree
  | off off => exact .off fun later further => off later ((readLine_extends step).trans further)

theorem comparing_follows (slist : Nat → Bool) (lined : Lined glines)
    (noNul : ∀ gline ∈ glines, 0 ∉ gline) (noCr : ∀ gline ∈ glines, cr ∉ gline)
    (sound : Sound weave state last) :
    ∃ r, reading slist weave = some r ∧ Reads slist weave state last r ∧
      Follows glines weave state r (comparing slist glines weave) := by
  induction sound with
  | nil =>
    refine ⟨{},rfl,⟨rfl,rfl,(absurd rfl ·), nofun⟩, ?_⟩
    exact .same ⟨rfl,rfl,⟨[],rfl,rfl,rfl⟩,(absurd rfl ·), fun _ impossible => absurd rfl impossible⟩
  | @data weave state last buf sound inside clean ih =>
    obtain ⟨r,run,reads,follows⟩ := ih
    obtain ⟨r',step⟩ : ∃ r', readLine slist r (.data buf) = some r' := by
      unfold readLine
      dsimp only
      split <;> exact ⟨_,rfl⟩
    refine ⟨r',by rw [reading_concat,run]; exact step,reads.data inside clean step,?_⟩
    rw [comparing_concat]
    refine follows.step step fun c agree => ?_
    by_cases hidden : r.print = 0
    · exact follows_hidden sound inside reads agree hidden step
    · exact follows_shown noNul noCr inside clean reads agree hidden step
  | @ctrl weave state state' last type serial nonl sound real unsealed fresh marked moved ih =>
    obtain ⟨r,run,reads,follows⟩ := ih
    obtain ⟨r',step⟩ : ∃ r', readLine slist r (.ctrl type serial nonl) = some r' := by
      unfold readLine
      dsimp only
      rw [reads.state_eq,moved]
      exact ⟨_,rfl⟩
    refine ⟨r',by rw [reading_concat,run]; exact step,reads.ctrl sound fresh moved step,?_⟩
    rw [comparing_concat]
    exact follows.step step fun c agree =>
      follows_ctrl lined sound reads agree real unsealed fresh moved step

theorem Sound.last_clean (sound : Sound weave state last) {p : Nat} (filled : last p ≠ []) :
    Clean (last p) := by
  induction sound with
  | nil => exact absurd rfl filled
  | @data weave state last buf sound inside clean ih =>
    by_cases here : p = whatstate state
    · rwa [here,update_self]
    · rw [update_of_ne here] at filled ⊢
      exact ih filled
  | ctrl sound real unsealed fresh marked moved ih => exact ih filled

theorem Reads.filled (sound : Sound weave [] last) (reads : Reads slist weave [] last r)
    (pending : (r.lfPend != 0) = true) : ∃ text, r.texts.getLast? = some text ∧ text ≠ [] := by
  obtain ⟨text,place⟩ := reads.pending (bne_iff_ne.mp pending)
  have filled := (sound.sealed (place.resolve_left not_mem_nil)).2
  obtain ⟨line,stored,_,_⟩ := sound.last_clean filled
  refine ⟨_,text,?_⟩
  rw [stored,unescape_fixCntlA]
  rintro rfl
  exact filled stored

theorem misses_endLines (plain : ∀ text ∈ texts, newline ∉ text)
    (filled : pending = true → ∃ text, texts.getLast? = some text ∧ text ≠ []) :
    misses (endLines texts pending) = pending := by
  unfold endLines
  cases pending with
  | false => exact misses_ended texts
  | true =>
    obtain ⟨text,ends,_⟩ := filled rfl
    rw [if_pos rfl,ends]
    change ((_ ++ [text]).getLast?.any _) = true
    rw [getLast?_concat]
    exact bne_iff_ne.mpr fun last => plain text (mem_of_getLast? ends) (mem_of_getLast? last)

theorem Agree.different_iff {c : Compare} (lined : Lined glines) (sound : Sound weave [] last)
    (reads : Reads slist weave [] last r) (agree : Agree glines weave [] r c) :
    c.different = 0 ↔ glines = endLines r.texts (r.lfPend != 0) := by
  obtain ⟨read,whole,texts,flag⟩ := agree.read
  have done : c.lfPend = 0 := by
    by_contra waiting
    exact absurd (agree.waits waiting).2 not_mem_nil
  rw [done,beq_self_eq_true,Bool.and_true] at flag
  have plain : ∀ text ∈ r.texts, newline ∉ text := fun text inside => (reads.plain text inside).1
  unfold Compare.different
  constructor
  · intro zero
    split at zero
    · cases zero
    rename_i missing
    by_cases empty : c.gfile = []
    · rw [empty,append_nil] at whole
      have marks : misses read = (r.lfPend != 0) := by
        have clear : c.noLf = false := Bool.not_eq_true _ ▸ missing
        rw [clear] at flag
        exact bne_eq_false_iff_eq.mp flag.symm
      have known := eq_endLines lined (whole ▸ texts)
      rw [whole,marks] at known
      rwa [whole]
    · rw [if_neg empty] at zero
      cases zero
  · intro same
    have size := congrArg List.length (map_chomp_endLines plain (r.lfPend != 0))
    rw [← same,length_map,whole,length_append,← texts,length_map] at size
    have empty : c.gfile = [] := length_eq_zero_iff.mp (by omega)
    rw [empty,append_nil] at whole
    rw [← whole,same,misses_endLines plain (reads.filled sound),Bool.xor_self] at flag
    rw [if_neg (flag ▸ Bool.false_ne_true),if_pos empty]

theorem Follows.verdict_iff (follows : Follows glines weave [] r outcome)
    (lined : Lined glines) (sound : Sound weave [] last) (reads : Reads slist weave [] last r) :
    verdict outcome = some 0 ↔ glines = endLines r.texts (r.lfPend != 0) := by
  cases follows with
  | same agree =>
    rw [← agree.different_iff lined sound reads]
    exact ⟨Option.some.inj,congrArg some⟩
  | off off =>
    constructor
    · intro impossible
      cases impossible
    · intro same
      exact absurd same
        (off r ⟨prefix_refl _,fun zero _ => zero⟩ fun text inside => (reads.plain text inside).1)

theorem render_windows (noCr : cr ∉ render (eolOf true) texts pending) :
    render (eolOf true) texts pending = render [newline] texts pending := by
  have none_ : ∀ {list : List Bytes}, cr ∉ (list.map (· ++ eolOf true)).flatten → list = [] := by
    intro list absent
    cases list with
    | nil => rfl
    | cons text list =>
      refine absurd ?_ absent
      rw [map_cons,flatten_cons]
      exact mem_append_left _ (mem_append_right _ mem_cons_self)
  unfold render at noCr ⊢
  cases pending with
  | false =>
    rw [if_neg Bool.false_ne_true] at noCr
    rw [none_ noCr]
    rfl
  | true =>
    rw [if_pos rfl,mem_append,not_or] at noCr
    rw [if_pos rfl,if_pos rfl,none_ noCr.1]
    rfl

/-- `_hasDiffs` returns 0 exactly for the text that `get_reg` extracts. -/
theorem hasDiffs_iff_checkout {weave : List Line} (built : Built weave)
    (serialmap : Pfile → Nat → Bool) (windows inex : Bool) (gfile : Gfile) (delta : Delta)
    (readable : gfile.readable = true) (regular : gfile.symlink = none)
    (unmoved : moved gfile delta = false) (noNul : 0 ∉ gfile.text) (noCr : cr ∉ gfile.text) :
    ∃ text, getReg (serialmap {}) windows weave = some text ∧
      (cr ∉ text →
      (hasDiffs (some gfile) delta inex {} serialmap weave = some 0 ↔ gfile.text = text)) := by
  obtain ⟨last,sound⟩ := built.sound
  have whole := flatten_lines gfile.text
  have part : ∀ gline ∈ lines gfile.text, ∀ c ∈ gline, c ∈ gfile.text := by
    intro gline inside c listed
    rw [← whole]
    exact mem_flatten.mpr ⟨gline,inside,listed⟩
  have lined := lined_lines gfile.text
  obtain ⟨r,run,reads,follows⟩ := comparing_follows (serialmap {}) lined
    (fun gline inside zero => noNul (part gline inside 0 zero))
    (fun gline inside here => noCr (part gline inside cr here)) sound
  have pos : ∀ line ∈ weave, line ≠ .ctrl .fin 0 false := by
    rintro line inside rfl
    exact sound.real inside rfl
  refine ⟨render (eolOf windows) r.texts (r.lfPend != 0),by rw [getReg_eq _ _ pos,run]; rfl,
    fun plain => ?_⟩
  have unix : render (eolOf windows) r.texts (r.lfPend != 0) = render [newline] r.texts
      (r.lfPend != 0) := by
    cases windows with
    | false => rfl
    | true => exact render_windows plain
  have texts : ∀ text ∈ r.texts, newline ∉ text := fun text inside => (reads.plain text inside).1
  have known : gfile.text = render (eolOf windows) r.texts (r.lfPend != 0) ↔
      lines gfile.text = endLines r.texts (r.lfPend != 0) := by
    rw [unix,render_eq]
    constructor
    · intro same
      rw [same,lines_flatten (lined_endLines texts (reads.filled sound))]
    · intro same
      rw [← same,whole]
  rw [known]
  unfold hasDiffs
  dsimp only
  rw [readable,regular,unmoved]
  change (if false = true then _ else if (inex && false) = true then _ else if false = true then
    _ else _) = _ ↔ _
  rw [Bool.and_false,if_neg Bool.false_ne_true,if_neg Bool.false_ne_true,if_neg Bool.false_ne_true]
  exact follows.verdict_iff lined sound reads

/-- The second check-in has `c` without a newline in the place of `b`. -/
theorem hasDiffs_iff_checkout_replaced :
    ∃ woven, deltaWrite (checkin [97,10,98,10] 1 false) (· = 1) 2
        [100,50,32,49,10,97,50,32,49,10,99] = .ok woven ∧
      hasDiffs (some ⟨true,none,none,[97,10,99]⟩) ⟨none,none⟩ true {} (fun _ _ => true) woven.weave =
        some 0 ∧
      hasDiffs (some ⟨true,none,none,[97,10,99,10]⟩) ⟨none,none⟩ true {} (fun _ _ => true)
        woven.weave ≠ some 0 := by
  obtain ⟨woven,wrote⟩ : ∃ woven, deltaWrite (checkin [97,10,98,10] 1 false) (· = 1) 2
    [100,50,32,49,10,97,50,32,49,10,99] = .ok woven := ⟨_,rfl⟩
  have read : (deltaWrite (checkin [97,10,98,10] 1 false) (· = 1) 2
      [100,50,32,49,10,97,50,32,49,10,99]).map
        (fun woven => getReg (fun _ => true) false woven.weave) = .ok (some [97,10,99]) := by rfl
  rw [wrote] at read
  have checked : ChecksIn (checkin [97,10,98,10] 1 false) (· = 1) 2 [97,10,99] woven :=
    ⟨by decide,by unfold Older; decide,_,[.delete 2 1,.append 2 [[99]]],[97,10,98,10],rfl,rfl,rfl,
      wrote⟩
  have built := Built.delta _ 2 (.first [97,10,98,10] 1 false (by decide) nofun) checked
  have compared : ∀ text, 0 ∉ text → cr ∉ text → (hasDiffs (some ⟨true,none,none,text⟩) ⟨none,none⟩
      true {} (fun _ _ => true) woven.weave = some 0 ↔ text = [97,10,99]) := by
    intro text noNul noCr
    obtain ⟨_,extracted,same⟩ := hasDiffs_iff_checkout built (fun _ _ => true) false true
      ⟨true,none,none,text⟩ ⟨none,none⟩ rfl rfl rfl noNul noCr
    cases extracted.symm.trans (Except.ok.inj read)
    exact same (by decide)
  exact ⟨woven,wrote,(compared _ (by decide) (by decide)).mpr rfl,
    fun same => absurd ((compared _ (by decide) (by decide)).mp same) (by decide)⟩

end BitKeeper.Weave
