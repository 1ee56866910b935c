import BitKeeper.Weave.Checkin

/-!
The open blocks of a weave, in the order of their serials: a delete of the newest delta is always on
top, where no control line of an older delta touches it.
-/

namespace BitKeeper.Weave

open List Bytes

def Ordered (state : List Entry) : Prop := state.Pairwise fun a b => b.ser < a.ser

variable {serial : Nat}

theorem changestate_top (type : Kind) {n : Nat} (older : serial < n) (state : List Entry) :
    changestate type serial (⟨n,false⟩ :: state) = (changestate type serial state).map
      (⟨n,false⟩ :: ·) := by
  conv_lhs => unfold changestate
  rw [if_neg (show ¬ n ≤ serial by omega)]
  exact if_neg Bool.false_ne_true

variable {type : Kind} {state : List Entry}

theorem changestate_newest (opens : type ≠ .fin) {n : Nat} (older : ∀ e ∈ state, e.ser < n) :
    changestate type n state = some (⟨n,decide (type = .ins)⟩ :: state) := by
  cases state with
  | nil => exact if_neg opens
  | cons e state =>
    unfold changestate
    rw [if_pos (Nat.le_of_lt (older e mem_cons_self)),if_neg opens]

theorem changestate_close (n : Nat) (ins : Bool) (state : List Entry) :
    changestate .fin n (⟨n,ins⟩ :: state) = some state := by
  unfold changestate
  rw [if_pos (Nat.le_refl n),if_pos rfl,if_pos rfl]

variable {state' : List Entry}

theorem mem_changestate (opens : type ≠ .fin) (moved : changestate type serial state = some state')
    (e : Entry) :
    e ∈ state' ↔ e = ⟨serial,decide (type = .ins)⟩ ∨ e ∈ state := by
  fun_induction changestate type serial state generalizing state' with
  | case1 closes | case3 _ _ _ closes | case4 _ _ _ closes => exact absurd closes opens
  | case2 =>
    cases moved
    rw [mem_singleton]
    exact ⟨.inl,fun known => known.resolve_right not_mem_nil⟩
  | case5 =>
    cases moved
    rw [mem_cons]
  | case6 => cases moved
  | case7 top state _ _ ih =>
    obtain ⟨rest,found,rfl⟩ := Option.map_eq_some_iff.mp moved
    rw [mem_cons,mem_cons,ih found]
    exact ⟨fun known => known.elim (.inr ∘ .inl) (Or.imp_right .inr),
      fun known => known.elim (.inr ∘ .inl) (Or.imp_right .inr)⟩

theorem changestate_fin (moved : changestate .fin serial state = some state') :
    ∃ above e below, state = above ++ e :: below ∧ state' = above ++ below ∧ e.ser = serial ∧
      ∀ x ∈ above, x.ins = false := by
  induction state generalizing state' with
  | nil => exact absurd moved (by simp [changestate])
  | cons top state ih =>
    unfold changestate at moved
    split at moved
    · rw [if_pos rfl] at moved
      split at moved
      next same =>
        cases moved
        exact ⟨[],top,state,rfl,rfl,same,nofun⟩
      next => cases moved
    · split at moved
      next => cases moved
      next insert =>
        obtain ⟨rest,found,rfl⟩ := Option.map_eq_some_iff.mp moved
        obtain ⟨above,e,behind,rfl,rfl,same,deletes⟩ := ih found
        exact ⟨top :: above,e,behind,rfl,rfl,same,
          forall_mem_cons.mpr ⟨Bool.not_eq_true _ ▸ insert,deletes⟩⟩

theorem ordered_changestate (ordered : Ordered state)
    (fresh : type ≠ .fin → serial ∉ state.map Entry.ser)
    (moved : changestate type serial state = some state') : Ordered state' := by
  by_cases closes : type = .fin
  · rw [closes] at moved
    obtain ⟨above,e,below,rfl,rfl,_,_⟩ := changestate_fin moved
    exact ordered.sublist (List.Sublist.append_left (sublist_cons_self e below) above)
  have absent := fresh closes
  clear fresh
  fun_induction changestate type serial state generalizing state' with
  | case1 shut | case3 _ _ _ shut | case4 _ _ _ shut => exact absurd shut closes
  | case2 =>
    cases moved
    exact pairwise_singleton _ _
  | case5 top state below =>
    have less : top.ser < serial :=
      Nat.lt_of_le_of_ne below fun same => absent (mem_map.mpr ⟨top,mem_cons_self,same⟩)
    cases moved
    refine pairwise_cons.mpr ⟨forall_mem_cons.mpr ⟨less,fun e inside => ?_⟩,ordered⟩
    exact Nat.lt_trans ((pairwise_cons.mp ordered).1 e inside) less
  | case6 => cases moved
  | case7 top state below _ ih =>
    obtain ⟨others,later⟩ := pairwise_cons.mp ordered
    obtain ⟨inner,found,rfl⟩ := Option.map_eq_some_iff.mp moved
    refine pairwise_cons.mpr
      ⟨fun e inside => ?_,ih later found fun inside => absent (mem_cons_of_mem _ inside)⟩
    rcases (mem_changestate closes found e).mp inside with rfl | old
    · exact Nat.lt_of_not_le below
    · exact others e old

theorem not_mem_closed (ordered : Ordered state)
    (moved : changestate .fin serial state = some state') : serial ∉ state'.map Entry.ser := by
  obtain ⟨above,e,below,rfl,rfl,same,_⟩ := changestate_fin moved
  obtain ⟨_,lower,upper⟩ := pairwise_append.mp ordered
  intro inside
  obtain ⟨x,listed,equal⟩ := mem_map.mp inside
  rcases mem_append.mp listed with early | late
  · have larger := upper x early e mem_cons_self
    omega
  · have smaller := (pairwise_cons.mp lower).1 x late
    omega

theorem mem_of_changestate (moved : changestate type serial state = some state') {e : Entry}
    (inside : e ∈ state') :
    e.ser = serial ∨ e ∈ state := by
  by_cases closes : type = .fin
  · rw [closes] at moved
    obtain ⟨above,x,below,rfl,rfl,_,_⟩ := changestate_fin moved
    exact .inr ((List.Sublist.append_left (sublist_cons_self x below) above).subset inside)
  · rcases (mem_changestate closes moved e).mp inside with rfl | old
    · exact .inl rfl
    · exact .inr old

theorem mem_changestate_other (moved : changestate type serial state = some state') {e : Entry}
    (inside : e ∈ state) (other : e.ser ≠ serial) : e ∈ state' := by
  by_cases closes : type = .fin
  · rw [closes] at moved
    obtain ⟨above,x,below,rfl,rfl,same,_⟩ := changestate_fin moved
    rcases mem_append.mp inside with early | late
    · exact mem_append_left _ early
    · rcases mem_cons.mp late with rfl | late
      · exact absurd same other
      · exact mem_append_right _ late
  · exact (mem_changestate closes moved e).mpr (.inr inside)

theorem whatstate_mem (inside : whatstate state ≠ 0) : ⟨whatstate state,true⟩ ∈ state := by
  induction state with
  | nil => exact absurd rfl inside
  | cons e state ih =>
    unfold whatstate at inside ⊢
    by_cases insert : e.ins = true
    · rw [if_pos insert,← insert]
      exact mem_cons_self
    · rw [if_neg insert] at inside ⊢
      exact mem_cons_of_mem _ (ih inside)

theorem whatstate_of_deletes {above : List Entry} (deletes : ∀ e ∈ above, e.ins = false)
    (state : List Entry) :
    whatstate (above ++ state) = whatstate state := by
  induction above with
  | nil => rfl
  | cons e above ih =>
    obtain ⟨first,later⟩ := forall_mem_cons.mp deletes
    rw [cons_append]
    conv_lhs => unfold whatstate
    rw [if_neg (first ▸ Bool.false_ne_true),ih later]

theorem whatstate_of_close (ordered : Ordered state)
    (moved : changestate .fin serial state = some state') (insert : ⟨serial,true⟩ ∈ state) :
    whatstate state = serial := by
  obtain ⟨above,e,below,rfl,_,same,deletes⟩ := changestate_fin moved
  obtain ⟨_,lower,upper⟩ := pairwise_append.mp ordered
  have found : e = ⟨serial,true⟩ := by
    rcases mem_append.mp insert with early | late
    · have larger := upper _ early e mem_cons_self
      exact absurd larger (by rw [same]; exact Nat.lt_irrefl _)
    · rcases mem_cons.mp late with equal | late
      · exact equal.symm
      · have smaller := (pairwise_cons.mp lower).1 _ late
        exact absurd smaller (by rw [same]; exact Nat.lt_irrefl _)
  rw [whatstate_of_deletes deletes,found]
  exact if_pos rfl

variable (slist : Nat → Bool)

theorem printstate_cases (state : List Entry) :
    printstate slist state = 0 ∨ printstate slist state = whatstate state ∧
      slist (whatstate state) = true := by
  fun_induction printstate slist state with
  | case1 | case3 | case4 => exact .inl rfl
  | case2 e state insert active =>
    rw [whatstate,if_pos insert]
    exact .inr ⟨rfl,active⟩
  | case5 e state insert active ih => rwa [whatstate,if_neg insert]

structure Reading where
  texts : List Bytes := []
  state : List Entry := []
  print : Nat := 0
  lfPend : Nat := 0

def readLine (slist : Nat → Bool) (r : Reading) : Line → Option Reading
  | .data buf =>
    if r.print = 0 then
      some (if r.lfPend ≠ 0 ∧ r.lfPend = whatstate r.state then { r with lfPend := 0 } else r)
    else some { r with texts := r.texts ++ [unescape buf], lfPend := r.print }
  | .ctrl type serial nonl =>
    (changestate type serial r.state).map fun state =>
      { r with
        state := state
        print := printstate slist state
        lfPend :=
          if type = .fin ∧ r.lfPend = serial ∧ whatstate r.state = serial ∧ nonl = false then 0 else
            r.lfPend }

def reading (slist : Nat → Bool) (weave : List Line) : Option Reading :=
  weave.foldlM (readLine slist) {}

theorem reading_concat (weave : List Line) (line : Line) :
    reading slist (weave ++ [line]) = (reading slist weave).bind fun r => readLine slist r line := by
  unfold reading
  rw [foldlM_append]
  cases weave.foldlM (readLine slist) {} with
  | none => rfl
  | some r =>
    change (readLine slist r line).bind some = readLine slist r line
    cases readLine slist r line with
    | none => rfl
    | some next => rfl

def render (eol : Bytes) (texts : List Bytes) (pending : Bool) : Bytes :=
  if pending then (texts.dropLast.map (· ++ eol)).flatten ++ texts.getLastD [] else
    (texts.map (· ++ eol)).flatten

variable (eol : Bytes)

theorem render_concat (texts : List Bytes) (text : Bytes) :
    render eol (texts ++ [text]) true = render eol texts false ++ text := by
  unfold render
  rw [if_pos rfl,if_neg Bool.false_ne_true,dropLast_concat,getLastD_concat]

private theorem render_ended {texts : List Bytes} (filled : texts ≠ []) :
    render eol texts true ++ eol = render eol texts false := by
  obtain ⟨before,text,rfl⟩ := eq_nil_or_concat texts |>.resolve_left filled
  rw [concat_eq_append,render_concat,append_assoc]
  unfold render
  rw [if_neg Bool.false_ne_true,if_neg Bool.false_ne_true,map_append,flatten_append]
  exact congrArg _ (append_nil _).symm

structure Written (eol : Bytes) (g : Get) (r : Reading) : Prop where
  out : g.out = render eol r.texts (r.lfPend != 0)
  state : g.state = r.state
  print : g.print = r.print
  lfPend : g.lfPend = r.lfPend
  filled : r.lfPend ≠ 0 → r.texts ≠ []

variable {g : Get} {r : Reading}

theorem Written.endLine {eol : Bytes} (written : Written eol g r) (pending : r.lfPend ≠ 0) :
    Written eol (g.endLine eol) { r with lfPend := 0 } where
  out := by
    have wrote := written.out
    rw [bne_iff_ne.mpr pending] at wrote
    change g.out ++ eol = render eol r.texts false
    rw [wrote,render_ended eol (written.filled pending)]
  state := written.state
  print := written.print
  lfPend := rfl
  filled := (absurd rfl ·)

theorem getLine_written (written : Written eol g r) (line : Line)
    (pos : line ≠ .ctrl .fin 0 false) :
    Option.Rel (Written eol) (getLine slist eol g line) (readLine slist r line) := by
  cases line with
  | data buf =>
    unfold getLine readLine
    dsimp only
    rw [written.print,written.lfPend,written.state]
    by_cases hidden : r.print = 0
    · rw [if_pos hidden,if_pos hidden]
      by_cases same : r.lfPend ≠ 0 ∧ r.lfPend = whatstate r.state
      · rw [if_pos same,if_pos same]
        exact .some (written.endLine same.1)
      · rw [if_neg same,if_neg same]
        exact .some written
    rw [if_neg hidden,if_neg hidden]
    refine .some ⟨?_,?_,?_,?_,fun _ => append_ne_nil_of_right_ne_nil _ (cons_ne_nil _ _)⟩
    · have shown : (r.print != 0) = true := bne_iff_ne.mpr hidden
      rw [shown,render_concat]
      split
      next pending =>
        exact congrArg (· ++ unescape buf) (written.endLine pending).out
      next pending =>
        rw [written.out,not_not.mp pending]
        rfl
    · rw [apply_ite Get.state]
      exact (ite_self _).trans written.state
    · rw [apply_ite Get.print]
      exact (ite_self _).trans written.print
    · rw [apply_ite Get.print]
      exact (ite_self _).trans written.print
  | ctrl type serial nonl =>
    unfold getLine readLine
    dsimp only
    rw [written.lfPend,written.state]
    by_cases ends : type = .fin ∧ r.lfPend = serial ∧ whatstate r.state = serial ∧ nonl = false
    · have pending : r.lfPend ≠ 0 := by
        intro zero
        rw [zero] at ends
        exact pos (by rw [ends.1,← ends.2.1,ends.2.2.2])
      rw [if_pos ends,if_pos ends]
      have ended := written.endLine pending
      rw [ended.state]
      cases changestate type serial r.state with
      | none => exact .none
      | some state => exact .some ⟨ended.out,rfl,rfl,ended.lfPend,ended.filled⟩
    · rw [if_neg ends,if_neg ends,written.state]
      cases changestate type serial r.state with
      | none => exact .none
      | some state => exact .some ⟨written.out,rfl,rfl,written.lfPend,written.filled⟩

theorem rel_bind {α β γ δ : Type} {R : α → β → Prop} {T : γ → δ → Prop} {x : Option α} {y : Option β}
    {f : α → Option γ} {g : β → Option δ} (same : Option.Rel R x y)
    (next : ∀ a b, R a b → Option.Rel T (f a) (g b)) : Option.Rel T (x >>= f) (y >>= g) := by
  cases same with
  | none => exact .none
  | some related => exact next _ _ related

private theorem rel_map {α β γ : Type} {R : α → β → Prop} {x : Option α} {y : Option β} {f : α → γ}
    {g : β → γ} (same : Option.Rel R x y) (next : ∀ a b, R a b → f a = g b) : x.map f = y.map g := by
  cases same with
  | none => rfl
  | some related => exact congrArg some (next _ _ related)

private theorem foldlM_written {weave : List Line}
    (pos : ∀ line ∈ weave, line ≠ .ctrl .fin 0 false) (written : Written eol g r) :
    Option.Rel (Written eol) (weave.foldlM (getLine slist eol) g)
    (weave.foldlM (readLine slist) r) := by
  induction weave generalizing g r with
  | nil => exact .some written
  | cons line weave ih =>
    obtain ⟨first,later⟩ := forall_mem_cons.mp pos
    rw [foldlM_cons,foldlM_cons]
    exact rel_bind (getLine_written slist eol written line first) fun g r step => ih later step

theorem getReg_eq (windows : Bool) {weave : List Line}
    (pos : ∀ line ∈ weave, line ≠ .ctrl .fin 0 false) :
    getReg slist windows weave =
      (reading slist weave).map fun r => render (eolOf windows) r.texts (r.lfPend != 0) := by
  have same := foldlM_written slist (eolOf windows) pos
    (show Written (eolOf windows) {} {} from ⟨rfl,rfl,rfl,rfl,(absurd rfl ·)⟩)
  exact rel_map same fun g r written => written.out

end BitKeeper.Weave
