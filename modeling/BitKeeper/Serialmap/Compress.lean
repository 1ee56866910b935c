import BitKeeper.Serialmap.Walk
import BitKeeper.Serialmap.Revs

/-!
`compressmap` walks with the answers of the map and lists every delta whose marks say something else,
so the lists force the answers on `serialmap`.
-/

namespace BitKeeper.Serialmap

open List Activation Symdiff Nat
open Function (update update_of_ne update_self)

def within (set : Nat → Byte) (e : Nat) : Bool := decide (set e ≠ 0)

variable {set : Nat → Byte} {e : Nat}

theorem within_true : within set e = true ↔ set e ≠ 0 := decide_eq_true_iff

theorem within_false : within set e = false ↔ set e = 0 := decide_eq_false_iff_not.trans not_not

structure Squeezed (g : Graph) (set : Nat → Byte) (m : Nat → Mark) (t : Nat) (a b : Squeeze) :
    Prop where
  included : ∀ e, e ∈ b.incser ↔ e ∈ a.incser ∨
    (e ≠ 0 ∧ e ≤ t ∧ g.tag e = false ∧ within set e = true ∧ (m e).active = false)
  excluded : ∀ e, e ∈ b.excser ↔ e ∈ a.excser ∨
    (e ≠ 0 ∧ e ≤ t ∧ g.tag e = false ∧ within set e = false ∧ (m e).active = true)

variable {t : Nat} {st : Squeeze}

private theorem compressStep_slist {s : Sfile} (proper : Proper s.graph s.cludes) (set : Nat → Byte)
    {m : Nat → Mark} (nonzero : t ≠ 0) (packed : ∀ e, st.slist e = pack (m e)) (e : Nat) :
    (compressStep s set t st).slist e = pack (step (s.net s.cludes proper) (within set t) t m e) := by
  have skip : (s.net s.cludes proper).skip t = s.graph.tag t := rfl
  have handed : ancestry s t st.slist e = pack (hand (s.net s.cludes proper) t m e) :=
    ancestry_pack proper nonzero (packed t) (packed e)
  unfold compressStep step
  rw [skip]
  by_cases tag : s.graph.tag t = true
  · rw [if_pos tag,if_pos tag,packed e]
  rw [if_neg tag,if_neg tag]
  by_cases out : set t = 0
  · rwa [if_pos out,within_false.mpr out]
  · rw [if_neg out,if_pos (within_true.mpr out)]
    exact notes_pack handed

private theorem compressStep_lists (s : Sfile) (set : Nat → Byte) {m : Mark} (nonzero : t ≠ 0)
    (packed : st.slist t = pack m) :
    (compressStep s set t st).incser =
        st.incser ++
          (if s.graph.tag t = false ∧ within set t = true ∧ m.active = false then [t] else []) ∧
      (compressStep s set t st).excser =
        st.excser ++
          (if s.graph.tag t = false ∧ within set t = false ∧ m.active = true then [t] else []) := by
  have active : isActive (ancestry s t st.slist t) = m.active := by
    rw [ancestry_above st.slist nonzero (le_refl t),packed,isActive_pack]
  unfold compressStep
  dsimp only
  rw [active]
  split
  next tag =>
    rw [tag]
    simp
  rename_i tag
  rw [eq_false_of_ne_true tag]
  split
  next out =>
    rw [within_false.mpr out]
    cases m.active <;> simp
  next out =>
    rw [within_true.mpr out]
    cases m.active <;> simp

theorem mem_entry {p : Prop} [Decidable p] : e ∈ (if p then [t] else []) ↔ e = t ∧ p := by
  split
  next holds =>
    rw [mem_singleton]
    exact ⟨fun same => ⟨same,holds⟩, fun both => both.1⟩
  next holds =>
    exact ⟨nofun, fun both => absurd both.2 holds⟩

theorem entry_or_below {p q : Nat → Prop} (top : q (t + 1) ↔ p (t + 1)) :
    ((e = t + 1 ∧ p (t + 1)) ∨ (e ≠ 0 ∧ e ≤ t ∧ q e)) ↔ (e ≠ 0 ∧ e ≤ t + 1 ∧ q e) := by
  by_cases here : e = t + 1
  · rw [here]
    exact ⟨fun either => ⟨succ_ne_zero t,le_rfl,
      top.mpr (either.elim (fun both => both.2) fun all => by omega)⟩,fun all =>
      .inl ⟨rfl,top.mp all.2.2⟩⟩
  · exact ⟨fun either => either.elim (fun both => absurd both.1 here)
      fun all => ⟨all.1,by omega,all.2.2⟩,fun all => .inr ⟨all.1,by omega,all.2.2⟩⟩

theorem compressFrom_squeezed {s : Sfile} (proper : Proper s.graph s.cludes) {m : Nat → Mark}
    (packed : ∀ e, st.slist e = pack (m e)) :
    Squeezed s.graph set (walkWith (s.net s.cludes proper) (within set) t m) t st
      (compressFrom s set t st) := by
  induction t generalizing st m with
  | zero =>
    exact ⟨fun e => ⟨.inl,fun either => either.resolve_right fun all => all.1 (le_zero.mp all.2.1)⟩,
      fun e => ⟨.inl,fun either => either.resolve_right fun all => all.1 (le_zero.mp all.2.1)⟩⟩
  | succ t ih =>
    have nonzero : t + 1 ≠ 0 := succ_ne_zero t
    obtain ⟨incEq,excEq⟩ := compressStep_lists s set nonzero (packed (t + 1))
    have later := ih (compressStep_slist proper set nonzero packed)
    have top : walkWith (s.net s.cludes proper) (within set) t
        (step (s.net s.cludes proper) (within set (t + 1)) (t + 1) m) (t + 1) = m (t + 1) :=
      (walkWith_above _ (le_succ t)).trans (step_above m le_rfl)
    unfold compressFrom walkWith
    constructor
    · intro e
      rw [later.included e,incEq,mem_append,mem_entry,or_assoc]
      refine or_congr_right
        (entry_or_below (p := fun f => s.graph.tag f = false ∧ within set f = true ∧
        (m f).active = false)
        (q := fun f => s.graph.tag f = false ∧ within set f = true ∧
          (walkWith (s.net s.cludes proper) (within set) t
          (step (s.net s.cludes proper) (within set (t + 1)) (t + 1) m) f).active = false) ?_)
      rw [top]
    · intro e
      rw [later.excluded e,excEq,mem_append,mem_entry,or_assoc]
      refine or_congr_right
        (entry_or_below (p := fun f => s.graph.tag f = false ∧ within set f = false ∧
        (m f).active = true)
        (q := fun f => s.graph.tag f = false ∧ within set f = false ∧
          (walkWith (s.net s.cludes proper) (within set) t
          (step (s.net s.cludes proper) (within set (t + 1)) (t + 1) m) f).active = true) ?_)
      rw [top]

def listSign (inc exc : List Nat) (e : Nat) : Option Bool :=
  if e ∈ exc then some false else if e ∈ inc then some true else none

theorem includes_eq (list : List Nat) (slist : Nat → Byte) (e : Nat) :
    list.foldl (fun slist t => update slist t S_INC) slist e = if e ∈ list then S_INC else
      slist e := by
  induction list generalizing slist with
  | nil => rfl
  | cons t rest ih =>
    rw [foldl_cons,ih]
    by_cases here : e = t
    · rw [here,update_self,if_pos mem_cons_self,ite_self]
    · rw [update_of_ne here]
      simp only [mem_cons,here,false_or]

theorem excludeAll_ok {list : List Nat} {slist : Nat → Byte} (apart : ∀ t ∈ list, slist t ≠ S_INC) :
    ∃ out, excludeAll slist list = .ok out ∧ ∀ e, out e = if e ∈ list then S_EXCL else slist e := by
  induction list generalizing slist with
  | nil => exact ⟨slist,rfl,fun e => rfl⟩
  | cons t rest ih =>
    obtain ⟨first,later⟩ := forall_mem_cons.mp apart
    have still : ∀ f ∈ rest, update slist t S_EXCL f ≠ S_INC := by
      intro f inside
      by_cases here : f = t
      · rw [here,update_self]
        decide
      · rw [update_of_ne here]
        exact later f inside
    obtain ⟨out,ran,outEq⟩ := ih still
    refine ⟨out,?_,fun e => ?_⟩
    · unfold excludeAll
      rw [if_neg first,ran]
    · rw [outEq e]
      by_cases here : e = t
      · rw [here,update_self,if_pos mem_cons_self,ite_self]
      · rw [update_of_ne here]
        simp only [mem_cons,here,false_or]

theorem serialmap_printed (s : File) (proper : Proper s.graph s.cludes) {d : Nat}
    (real : RealSerial s.graph d) {inc exc : List Nat} (realInc : ∀ t ∈ inc, RealSerial s.graph t)
    (realExc : ∀ t ∈ exc, RealSerial s.graph t) (apart : ∀ t ∈ exc, t ∉ inc) :
    ∃ map, serialmap s d 0 (printRevs s inc) (printRevs s exc) = .ok map ∧
      ∀ e, map e = answered s.graph
        (walk (s.net s.cludes proper) s.graph.table (forced (listSign inc exc) (seedMarks [d])))
      e := by
  have nothing : ∀ t ∈ exc.reverse, inc.reverse.foldl (fun slist t => update slist t S_INC)
      (fun _ => 0) t ≠ S_INC := by
    intro t inside
    rw [includes_eq,if_neg fun also => apart t (mem_reverse.mp inside) (mem_reverse.mp also)]
    decide
  obtain ⟨slist,ran,slistEq⟩ := excludeAll_ok nothing
  have listed : ∀ e, slist e = pack (Mark.blank.force (listSign inc exc e)) := by
    intro e
    rw [slistEq e,includes_eq]
    unfold listSign
    simp only [mem_reverse]
    split
    · rfl
    · split <;> rfl
  have packed : ∀ e, orAt slist d S_PAR e = pack (forced (listSign inc exc) (seedMarks [d]) e) := by
    intro e
    rw [orAt_pack d (listed e)]
    unfold forced seedMarks
    split
    next here =>
      rw [if_pos (mem_singleton.mpr here),force_inherit]
    next here =>
      rw [if_neg (mt mem_singleton.mp here)]
  refine ⟨mapFrom s.toSfile (newestOf (newestOf (max d 0) inc.reverse) exc.reverse)
    (orAt slist d S_PAR),?_,fun e => ?_⟩
  · unfold serialmap
    rw [revs_printRevs s realInc,revs_printRevs s realExc]
    simp only [ne_eq,not_true_eq_false,if_false,if_true]
    rw [ran]
    rfl
  have first := le_newestOf (max d 0) inc.reverse
  have second := le_newestOf (newestOf (max d 0) inc.reverse) exc.reverse
  refine mapFrom_whole proper packed ?_ (fun f above => ?_) e
  · refine newestOf_le (newestOf_le ?_ fun t inside => (realInc t (mem_reverse.mp inside)).2.1)
      fun t inside => (realExc t (mem_reverse.mp inside)).2.1
    rw [max_zero]
    exact real.2.1
  have notD : f ≠ d := fun same => by omega
  have notInc : f ∉ inc := fun inside => by
    have low := first.2 f (mem_reverse.mpr inside)
    omega
  have notExc : f ∉ exc := fun inside => by
    have low := second.2 f (mem_reverse.mpr inside)
    omega
  unfold forced seedMarks listSign
  rw [if_neg (mt mem_singleton.mp notD),if_neg notExc,if_neg notInc]
  rfl

structure Restored (s : Sfile) (proper : Proper s.graph s.cludes) (d : Nat) (set map : Nat → Byte)
    (marks : Nat → Mark) : Prop where
  map : ∀ e, map e = answered s.graph marks e
  active : ∀ e, RealSerial s.graph e → (marks e).active = within set e
  blank : ∀ e, ¬ RealSerial s.graph e → marks e = Mark.blank
  par : ∀ e, (marks e).par =
    (walkWith (s.net s.cludes proper) (within set) s.graph.table (seedMarks [d]) e).par

private theorem listSign_getD {inc exc : List Nat} {on goal : Bool}
    (included : e ∈ inc ↔ goal = true ∧ on = false)
    (excluded : e ∈ exc ↔ goal = false ∧ on = true) : (listSign inc exc e).getD on = goal := by
  unfold listSign
  cases on <;> cases goal <;> simp_all

theorem serialmap_restored (s : File) (proper : Proper s.graph s.cludes) {d : Nat}
    (real : RealSerial s.graph d) (set : Nat → Byte) :
    ∃ map marks, serialmap s d 0 (compressmap s d set).1 (compressmap s d set).2 = .ok map ∧
      Restored s.toSfile proper d set map marks := by
  have seeds : ∀ e, update (fun _ => (0 : Byte)) d S_PAR e = pack (seedMarks [d] e) := by
    intro e
    unfold seedMarks
    by_cases here : e = d
    · rw [here,update_self,if_pos mem_cons_self]
      rfl
    · rw [update_of_ne here,if_neg (mt mem_singleton.mp here)]
      rfl
  obtain ⟨included,excluded⟩ : Squeezed s.graph
    set (walkWith (s.net s.cludes proper) (within set) s.graph.table (seedMarks [d])) s.graph.table
      ⟨update (fun _ => 0) d S_PAR, [],[]⟩
      (compressFrom s.toSfile set s.graph.table ⟨update (fun _ => 0) d S_PAR, [],[]⟩) :=
        compressFrom_squeezed proper seeds
  simp only [not_mem_nil,false_or] at included excluded
  unfold compressmap
  generalize compressFrom s.toSfile set s.graph.table ⟨update (fun _ => 0) d S_PAR, [],
    []⟩ = out at included excluded ⊢
  have realInc : ∀ e ∈ out.incser, RealSerial s.graph e := fun e inside => by
    obtain ⟨nonzero,low,plain,_⟩ := (included e).mp inside
    exact ⟨nonzero,low,plain⟩
  have realExc : ∀ e ∈ out.excser, RealSerial s.graph e := fun e inside => by
    obtain ⟨nonzero,low,plain,_⟩ := (excluded e).mp inside
    exact ⟨nonzero,low,plain⟩
  have apart : ∀ e ∈ out.excser, e ∉ out.incser := fun e inside also =>
    Bool.false_ne_true (((excluded e).mp inside).2.2.2.1.symm.trans ((included e).mp also).2.2.2.1)
  obtain ⟨map,ran,mapEq⟩ := serialmap_printed s proper real realInc realExc apart
  have corrects : ∀ e, e ≠ 0 → e ≤ s.graph.table → s.graph.tag e = false →
    (listSign out.incser out.excser e).getD
      (walkWith (s.net s.cludes proper) (within set) s.graph.table (seedMarks [d]) e).active =
        within set e := by
    intro e nonzero low plain
    refine listSign_getD ?_ ?_
    · rw [included]
      exact ⟨fun all => all.2.2.2, fun both => ⟨nonzero,low,plain,both⟩⟩
    · rw [excluded]
      exact ⟨fun all => all.2.2.2, fun both => ⟨nonzero,low,plain,both⟩⟩
  rw [walk_forced corrects] at mapEq
  refine ⟨map,_,ran,mapEq,fun e inside => ?_, fun e outside => ?_, fun e => ?_⟩
  · rw [forced_active]
    exact corrects e inside.1 inside.2.1 inside.2.2
  · have unmarked : seedMarks [d] e = Mark.blank := if_neg fun (same : e ∈ [d]) =>
      outside ((mem_singleton.mp same).symm ▸ real)
    have unlisted : listSign out.incser out.excser e = none := by
      unfold listSign
      rw [if_neg fun inside => outside (realExc e inside),
        if_neg fun inside => outside (realInc e inside)]
    have unwalked : walkWith (s.net s.cludes proper) (within set) s.graph.table (seedMarks [d]) e =
        seedMarks [d] e := by
      by_cases above : s.graph.table < e
      · exact walkWith_above _ (by omega)
      · refine walkWith_outside _ ?_
        by_cases zero : e = 0
        · rw [zero]
          exact zero_outside proper
        · refine tag_outside proper
            (Bool.eq_true_of_not_eq_false fun plain => outside ⟨zero,by omega,plain⟩)
    unfold forced
    rw [unlisted,unwalked,unmarked]
    rfl
  · unfold forced
    rw [force_par]

end BitKeeper.Serialmap
