import BitKeeper.Lib.Assoc

/-!
`aliasdb_expandOne`. The table `seen` holds the aliases that are being expanded, so a second insertion
is a cycle and a diamond is none.
-/

namespace BitKeeper.Alias

open List Relation Assoc

abbrev Word := List Char

local instance : LawfulBEq Word := List.instLawfulBEq

/-- `strcasecmp` in the C locale. -/
def strieq (a b : Word) : Bool := a.map Char.toLower == b.map Char.toLower

def HERE : Word := ['H','E','R','E']
def THERE : Word := ['T','H','E','R','E']
def PRODUCT : Word := ['P','R','O','D','U','C','T']
def ALL : Word := ['A','L','L']
def COMPONENTS : Word := ['C','O','M','P','O','N','E','N','T','S']

def reserved : List Word :=
  [ALL,PRODUCT,COMPONENTS,HERE,THERE,['n','e','w'],['a','d','d'],['r','m'],['s','e','t'],
    ['l','i','s','t']]

/-- The alias in the spelling of the table. No alias is refused. -/
def chkReserved (alias_ : Word) : Word := (reserved.find? (strieq · alias_)).getD alias_

def isxdigit (c : Char) : Bool := c.isDigit || ('a' ≤ c && c ≤ 'f') || ('A' ≤ c && c ≤ 'F')

def isKey (key : Word) : Bool :=
  (26 ≤ key.length && (key.count '|' == 3 || key.count '|' == 4)) ||
    (key.length == 30 && (key.take 8).all isxdigit && (key.drop 8).all fun c => c.isAlphanum ||
      c == '-' || c == '_')

/-- The words between carriage returns and newlines. -/
def splitLine (line : Word) : List Word :=
  (line.splitOnP fun c => c == '\r' || c == '\n').filter (· ≠ [])

structure Nested (C : Type) where
  comps : List C
  product : C
  rootkey : C → Word

structure Tables where
  keys : List Word
  seen : List Word

def each (f : Word → Tables → Option (Bool × Tables)) : List Word → Tables → Option (Bool × Tables)
  | [], t => some (true, t)
  | w :: rest, t => (f w t).bind fun r => if r.1 then each f rest r.2 else some (false, r.2)

section Model
variable {C : Type} (n : Nested C) (aliasdb : List (Word × Word))

def value (alias_ : Word) (t : Tables) : Bool × Tables :=
  if isKey alias_ then (true, { t with keys := alias_ :: t.keys }) else (false, t)

/-- True for the return value 0; nothing if the depth does not suffice. -/
def expand : Nat → Word → Tables → Option (Bool × Tables)
  | 0, _, _ => none
  | depth + 1, alias_, t =>
    if strieq HERE alias_ ∨ strieq THERE alias_ then some (false, t)
    else if strieq PRODUCT alias_ then some (true, { t with keys := n.rootkey n.product :: t.keys })
    else if strieq ALL alias_ then some (true, { t with keys := n.comps.map n.rootkey ++ t.keys })
    else
      match aliasdb.lookup alias_ with
      | none => some (value alias_ t)
      | some mval =>
        if alias_ ∈ t.seen then some (false, t)
        else
          (each (expand depth) (splitLine mval) { t with seen := alias_ :: t.seen }).map fun r =>
            (r.1, { r.2 with seen := r.2.seen.erase alias_ })

/-- The components, or nothing inside if something was amiss. -/
def aliasdb_expandOne (alias_ : Word) : Option (Option (List C)) :=
  (expand n aliasdb (aliasdb.length + 1) (chkReserved alias_) ⟨[],[]⟩).map fun r =>
    if r.1 then some (n.comps.filter fun c => n.rootkey c ∈ r.2.keys) else none

/-- The words that `expand` looks for before the database. -/
def special (w : Word) : Bool := strieq HERE w || strieq THERE w || strieq PRODUCT w || strieq ALL w

def References (a b : Word) : Prop :=
  special a = false ∧ ∃ mval, aliasdb.lookup a = some mval ∧ b ∈ splitLine mval

def Reached : Word → Word → Prop := ReflTransGen (References aliasdb)

/-- A word that is neither an alias, `ALL`, `PRODUCT` nor a key. -/
def Unknown (w : Word) : Prop := special w = false ∧ aliasdb.lookup w = none ∧ isKey w = false

def Bad (w : Word) : Prop :=
  TransGen (References aliasdb) w w ∨ strieq HERE w = true ∨ strieq THERE w = true ∨ Unknown aliasdb w

/-- The rootkeys that a word itself stands for. -/
def own (w : Word) : List Word :=
  if strieq PRODUCT w then [n.rootkey n.product]
  else if strieq ALL w then n.comps.map n.rootkey
  else if aliasdb.lookup w = none ∧ isKey w = true then [w] else []

def Fine (seen : List Word) (w : Word) : Prop := ∀ x, Reached aliasdb w x → x ∉ seen ∧ ¬ Bad aliasdb x

structure Expanded (t : Tables) (fine : Prop) (reached : Word → Prop) (r : Bool × Tables) : Prop where
  seen : r.2.seen = t.seen
  ok : r.1 = true ↔ fine
  keys : r.1 = true → ∀ k, k ∈ r.2.keys ↔ k ∈ t.keys ∨ ∃ x, reached x ∧ k ∈ own n aliasdb x

end Model

variable {C : Type} {n : Nested C} {aliasdb : List (Word × Word)} {w mval : Word} {seen : List Word}
  {t : Tables}

private theorem each_expanded {f : Word → Tables → Option (Bool × Tables)} {fine : Word → Prop}
    {reached : Word → Word → Prop} {ws : List Word} (step : ∀ w ∈ ws, ∀ t', t'.seen = t.seen →
      ∃ r, f w t' = some r ∧ Expanded n aliasdb t' (fine w) (reached w) r) :
    ∃ r, each f ws t = some r ∧ Expanded n aliasdb t (∀ w ∈ ws, fine w)
    (fun x => ∃ w ∈ ws, reached w x) r := by
  induction ws generalizing t with
  | nil => exact ⟨_,rfl,rfl,by simp,fun _ k => by simp⟩
  | cons w ws ih =>
    obtain ⟨first,ran,done⟩ := step w mem_cons_self t rfl
    unfold each
    rw [ran,Option.bind_some]
    split
    next ok =>
      obtain ⟨r,rest,all⟩ := ih (t := first.2) fun v later t' same =>
        step v (mem_cons_of_mem w later) t' (same.trans done.seen)
      refine ⟨r,rest,all.seen.trans done.seen,?_,fun good k => ?_⟩
      · rw [all.ok,forall_mem_cons]
        exact (and_iff_right (done.ok.mp ok)).symm
      · rw [all.keys good,done.keys ok,or_assoc]
        simp only [mem_cons,or_and_right,exists_or,exists_eq_left]
    next ok =>
      refine ⟨_,rfl,done.seen,iff_of_false Bool.false_ne_true fun fine => ?_, fun wrong => ?_⟩
      · exact ok (done.ok.mpr (fine w mem_cons_self))
      · cases wrong

theorem reached_only (none_ : ∀ x, ¬ References aliasdb w x) {x : Word} :
    Reached aliasdb w x ↔ x = w := by
  constructor
  · intro reached
    rcases reached.cases_head with same | ⟨y,edge,_⟩
    · exact same.symm
    · exact absurd edge (none_ y)
  · rintro rfl
    exact .refl

theorem expanded_word (none_ : ∀ x, ¬ References aliasdb w x) (fresh : w ∉ t.seen)
    {r : Bool × Tables} (same : r.2.seen = t.seen)
    (ok : r.1 = true ↔ ¬ (strieq HERE w = true ∨ strieq THERE w = true ∨ Unknown aliasdb w))
    (keys : r.1 = true → ∀ k, k ∈ r.2.keys ↔ k ∈ t.keys ∨ k ∈ own n aliasdb w) :
    Expanded n aliasdb t (Fine aliasdb t.seen w) (Reached aliasdb w) r := by
  refine ⟨same,ok.trans ⟨fun good x reached => ?_, fun fine bad => ?_⟩, fun good k => ?_⟩
  · rw [(reached_only none_).mp reached]
    refine ⟨fresh,fun bad => good (bad.resolve_left fun cycle => ?_)⟩
    obtain ⟨y,edge,_⟩ := TransGen.head'_iff.mp cycle
    exact none_ y edge
  · exact (fine w .refl).2 (Or.inr bad)
  · rw [keys good k]
    simp only [reached_only none_,exists_eq_left]

private theorem fine_alias (plain : special w = false) (found : aliasdb.lookup w = some mval)
    (fresh : w ∉ seen) :
    (∀ v ∈ splitLine mval, Fine aliasdb (w :: seen) v) ↔ Fine aliasdb seen w := by
  have edge : ∀ {v}, References aliasdb w v ↔ v ∈ splitLine mval := by
    intro v
    constructor
    · rintro ⟨_,text,same,inside⟩
      rw [Option.some.inj (found.symm.trans same)]
      exact inside
    · exact fun inside => ⟨plain,mval,found,inside⟩
  constructor
  · intro fine x reached
    rcases reached.cases_head with rfl | ⟨v,first,rest⟩
    · refine ⟨fresh,?_⟩
      rintro (cycle | here | there | unknown)
      · obtain ⟨v,first,rest⟩ := TransGen.head'_iff.mp cycle
        exact (fine v (edge.mp first) _ rest).1 mem_cons_self
      · simp [special,here] at plain
      · simp [special,there] at plain
      · exact Option.some_ne_none _ (found.symm.trans unknown.2.1)
    · have known := fine v (edge.mp first) x rest
      exact ⟨fun inside => known.1 (mem_cons_of_mem w inside), known.2⟩
  · intro fine v inside x reached
    have known := fine x (.head (edge.mpr inside) reached)
    refine ⟨fun listed => ?_, known.2⟩
    rcases mem_cons.mp listed with rfl | old
    · exact known.2 (Or.inl (TransGen.head'_iff.mpr ⟨v,edge.mpr inside,reached⟩))
    · exact known.1 old

/-- The aliases being expanded are different ones of the database, so its size bounds the depth. -/
theorem expand_expanded {depth : Nat} (distinct : t.seen.Nodup)
    (listed : ∀ s ∈ t.seen, special s = false ∧ s ∈ aliasdb.map Prod.fst)
    (enough : aliasdb.length < depth + t.seen.length) :
    ∃ r, expand n aliasdb depth w t = some r ∧ Expanded n aliasdb t (Fine aliasdb t.seen w)
    (Reached aliasdb w) r := by
  induction depth generalizing w t with
  | zero =>
    have fits := (distinct.subperm fun s inside => (listed s inside).2).length_le
    rw [length_map] at fits
    omega
  | succ depth ih =>
    unfold expand
    by_cases plain : special w = false
    · have words : (strieq HERE w = false ∧ strieq THERE w = false) ∧ strieq PRODUCT w = false ∧
          strieq ALL w = false := by
        simpa [special,and_assoc] using plain
      obtain ⟨⟨here,there⟩,product,all⟩ := words
      have ownEq : own n aliasdb w = if aliasdb.lookup w = none ∧ isKey w = true then [w] else [] :=
          by
        simp [own,product,all]
      rw [here,there,product,all,if_neg (by simp),if_neg Bool.false_ne_true,if_neg Bool.false_ne_true]
      cases found : aliasdb.lookup w with
      | none =>
        have fresh : w ∉ t.seen := fun inside => by
          obtain ⟨text,known⟩ := mem_keys_iff.mp (listed w inside).2
          exact Option.some_ne_none _ (known.symm.trans found)
        refine ⟨_,rfl,expanded_word ?_ fresh ?_ ?_ ?_⟩
        · rintro x ⟨_,text,some_,_⟩
          exact Option.some_ne_none _ (some_.symm.trans found)
        · unfold value
          split <;> rfl
        · unfold value Unknown
          cases isKey w <;> simp [here,there,plain,found]
        · rw [ownEq,found]
          unfold value
          cases isKey w <;> simp [or_comm]
      | some mval =>
        dsimp only
        split
        next old =>
          exact ⟨_,rfl,rfl,iff_of_false Bool.false_ne_true fun fine => (fine w .refl).1 old,
            fun wrong => by cases wrong⟩
        rename_i old
        have inDb : w ∈ aliasdb.map Prod.fst := mem_keys_iff.mpr ⟨mval,found⟩
        have step : ∀ v ∈ splitLine mval, ∀ t', t'.seen = w :: t.seen →
          ∃ r, expand n aliasdb depth v t' = some r ∧
            Expanded n aliasdb t' (Fine aliasdb (w :: t.seen) v) (Reached aliasdb v) r := by
          intro v _ t' same
          rw [← same]
          refine ih ?_ ?_ ?_ <;> rw [same]
          · exact nodup_cons.mpr ⟨old,distinct⟩
          · exact forall_mem_cons.mpr ⟨⟨plain,inDb⟩,listed⟩
          · rw [length_cons]
            omega
        obtain ⟨r,ran,done⟩ := each_expanded (t := { t with seen := w :: t.seen }) step
        rw [ran]
        refine ⟨_,rfl,?_,done.ok.trans (fine_alias plain found old),fun good k => ?_⟩
        · change r.2.seen.erase w = t.seen
          rw [done.seen]
          exact erase_cons_head ..
        · refine (done.keys good k).trans (or_congr_right ⟨?_,?_⟩)
          · rintro ⟨x,⟨v,inside,reached⟩,provides⟩
            exact ⟨x,.head ⟨plain,mval,found,inside⟩ reached,provides⟩
          · rintro ⟨x,reached,provides⟩
            rcases reached.cases_head with rfl | ⟨v,⟨_,text,same,inside⟩,rest⟩
            · simp [ownEq,found] at provides
            · exact ⟨x,⟨v,Option.some.inj (same.symm.trans found) ▸ inside,rest⟩,provides⟩
    · have word : ∀ r : Bool × Tables, r.2.seen = t.seen →
        (r.1 = true ↔ ¬ (strieq HERE w = true ∨ strieq THERE w = true)) →
          (r.1 = true → ∀ k, k ∈ r.2.keys ↔ k ∈ t.keys ∨ k ∈ own n aliasdb w) →
          ∃ r', some r = some r' ∧ Expanded n aliasdb t (Fine aliasdb t.seen w)
            (Reached aliasdb w) r' := by
        intro r same ok keys
        refine ⟨r,rfl,expanded_word (fun x edge => plain edge.1)
          (fun inside => plain (listed w inside).1) same ?_ keys⟩
        simpa [Unknown,plain] using ok
      split
      next stop =>
        exact word _ rfl (iff_of_false Bool.false_ne_true (not_not.mpr stop)) nofun
      rename_i stop
      by_cases product : strieq PRODUCT w
      · rw [if_pos product]
        exact word _ rfl (iff_of_true rfl stop) fun _ k => by simp [own,product,or_comm]
      · have all : strieq ALL w = true := by simpa [special,not_or.mp stop,product] using plain
        rw [if_neg product,if_pos all]
        exact word _ rfl (iff_of_true rfl stop) fun _ k => by simp [own,product,all,or_comm]

open Classical in
/-- The expansion ends. It fails exactly if a cycle, `HERE`, `THERE` or an unknown word is reached,
and else gives the components reached. -/
theorem aliasdb_expandOne_closure (n : Nested C) (aliasdb : List (Word × Word)) (alias_ : Word) :
    aliasdb_expandOne n aliasdb alias_ = some
      (if ∃ x, Reached aliasdb (chkReserved alias_) x ∧ Bad aliasdb x then none
        else some (n.comps.filter fun c => ∃ x, Reached aliasdb (chkReserved alias_) x ∧
          n.rootkey c ∈ own n aliasdb x)) := by
  obtain ⟨r,ran,done⟩ : ∃ r, expand n aliasdb (aliasdb.length + 1) (chkReserved alias_) ⟨[],[]⟩ =
    some r ∧ Expanded n aliasdb
      ⟨[],[]⟩ (Fine aliasdb [] (chkReserved alias_)) (Reached aliasdb (chkReserved alias_)) r :=
    expand_expanded nodup_nil (by simp) (by simp)
  unfold aliasdb_expandOne
  rw [ran,Option.map_some]
  by_cases bad : ∃ x, Reached aliasdb (chkReserved alias_) x ∧ Bad aliasdb x
  · obtain ⟨x,reached,isBad⟩ := bad
    have failed : ¬ r.1 = true := fun ok => (done.ok.mp ok x reached).2 isBad
    rw [if_neg failed,if_pos ⟨x,reached,isBad⟩]
  · have ok : r.1 = true := done.ok.mpr fun x reached =>
      ⟨not_mem_nil,fun isBad => bad ⟨x,reached,isBad⟩⟩
    rw [if_pos ok,if_neg bad]
    simp only [done.keys ok,not_mem_nil,false_or]

/-- A reserved word that is neither expanded nor a key: the expansion fails. -/
theorem aliasdb_expandOne_components : COMPONENTS ∈ reserved ∧
    aliasdb_expandOne (C := Unit) ⟨[()],(),fun _ => ['b','k','|','C','|','1']⟩ [] COMPONENTS =
      some none ∧
    ∀ x, Reached [] COMPONENTS x → x = COMPONENTS := by
  refine ⟨by decide,by decide,fun x reached => (reached_only ?_).mp reached⟩
  rintro y ⟨_,text,found,_⟩
  cases found

end BitKeeper.Alias
