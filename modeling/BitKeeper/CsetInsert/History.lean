import BitKeeper.CsetInsert.Table

/-!
What a delta table stands for, with no serials at all: a set of deltas that refer to each other by
key, and the symbols each of them set.
-/

namespace BitKeeper.CsetInsert

variable {K Q : Type}

structure History (K Q : Type) where
  deltas : Set (KeyDelta K Q)
  syms : K → List (String × Option K)

def Holds (known : Set (KeyDelta K Q)) (k : K) : Prop := ∃ v ∈ known, v.key = k

/-- The delta a symbol set by `k` is attached to: the first ancestor that is
not a tag. -/
inductive Tagged (known : Set (KeyDelta K Q)) : K → K → Prop
  | real (v : KeyDelta K Q) (member : v ∈ known) (plain : v.tag = false) : Tagged known v.key v.key
  | above (v : KeyDelta K Q) (parent target : K) (member : v ∈ known) (meta_ : v.tag = true)
      (up : v.parent = some parent) (rest : Tagged known parent target) :
      Tagged known v.key target

def KeysUnique (known : Set (KeyDelta K Q)) : Prop := ∀ v ∈ known, ∀ w ∈ known, v.key = w.key → v = w

theorem Tagged.mono {known larger : Set (KeyDelta K Q)} (subset : known ⊆ larger) {k t : K}
    (tagged : Tagged known k t) : Tagged larger k t := by
  induction tagged with
  | real v member plain => exact .real v (subset member) plain
  | above v parent target member meta_ up rest ih =>
    exact .above v parent target (subset member) meta_ up ih

theorem Tagged.unique {known : Set (KeyDelta K Q)} (keys : KeysUnique known) {k t t' : K}
    (left : Tagged known k t) (right : Tagged known k t') : t = t' := by
  induction left with
  | real v member plain =>
    generalize same : v.key = k at right
    cases right with
    | real w _member _plain => rfl
    | above w _parent _target memberW metaW _up _rest =>
      rw [keys v member w memberW same,metaW] at plain
      cases plain
  | above v parent target member meta_ up rest ih =>
    generalize same : v.key = k at right
    cases right with
    | real w memberW plainW =>
      rw [keys v member w memberW same,plainW] at meta_
      cases meta_
    | above w parentW _target memberW _metaW upW restW =>
      rw [keys v member w memberW same,upW] at up
      cases up
      exact ih restW

def learn (known : Set (KeyDelta K Q)) (p : Incoming K Q) : Set (KeyDelta K Q) :=
  {v | v ∈ known ∨ v = p.view ∧ ¬ Holds known p.key}

structure Takes (before : History K Q) (p : Incoming K Q) (after : History K Q) : Prop where
  deltas : after.deltas = learn before.deltas p
  known : Holds before.deltas p.key → after.syms = before.syms
  others : ∀ k, k ≠ p.key → after.syms k = before.syms k
  added : ¬ Holds before.deltas p.key → ∃ target, Tagged after.deltas p.key target ∧
    after.syms p.key = p.syms.map (fun name => (name, some target))

inductive Run : History K Q → List (Incoming K Q) → History K Q → Prop
  | nil (history : History K Q) : Run history [] history
  | cons (before middle after : History K Q) (p : Incoming K Q) (rest : List (Incoming K Q))
      (first : Takes before p middle) (later : Run middle rest after) : Run before (p :: rest) after

variable {before after : History K Q} {ps : List (Incoming K Q)}

theorem Run.append {middle : History K Q} {qs : List (Incoming K Q)} (first : Run before ps middle)
    (later : Run middle qs after) : Run before (ps ++ qs) after := by
  induction first with
  | nil history => exact later
  | cons start next final p rest takes _run ih => exact .cons start next after p _ takes (ih later)

def KeysName (ps : List (Incoming K Q)) : Prop := ∀ p ∈ ps, ∀ q ∈ ps, p.key = q.key → p = q

structure Grown (before : History K Q) (ps : List (Incoming K Q)) (after : History K Q) : Prop where
  deltas : ∀ v, v ∈ after.deltas ↔ v ∈ before.deltas ∨ ∃ p ∈ ps, v = p.view ∧
    ¬ Holds before.deltas p.key
  kept : ∀ k, (∀ p ∈ ps, p.key = k → Holds before.deltas k) → after.syms k = before.syms k
  added : ∀ p ∈ ps, ¬ Holds before.deltas p.key → ∃ target, Tagged after.deltas p.key target ∧
    after.syms p.key = p.syms.map (fun name => (name, some target))

theorem Grown.subset (grown : Grown before ps after) : before.deltas ⊆ after.deltas :=
  fun v member => (grown.deltas v).mpr (.inl member)

theorem Takes.holds {p : Incoming K Q} (takes : Takes before p after) (k : K) :
    Holds after.deltas k ↔ Holds before.deltas k ∨ k = p.key := by
  rw [takes.deltas]
  constructor
  · rintro ⟨v,member,same⟩
    rcases member with old | ⟨new,_fresh⟩
    · exact .inl ⟨v,old,same⟩
    · rw [new] at same
      exact .inr same.symm
  · intro held
    by_cases old : Holds before.deltas k
    · obtain ⟨v,member,same⟩ := old
      exact ⟨v,.inl member,same⟩
    · have same := held.resolve_left old
      subst same
      exact ⟨p.view,.inr ⟨rfl,old⟩,rfl⟩

theorem Grown.cons {middle : History K Q} {p : Incoming K Q} {rest : List (Incoming K Q)}
    (takes : Takes before p middle) (grown : Grown middle rest after)
    (named : KeysName (p :: rest)) : Grown before (p :: rest) after := by
  have repeated : ∀ q ∈ rest, q.key = p.key → q = p :=
    fun q member same => named q (by simp [member]) p (by simp) same
  have middleDeltas : ∀ v, v ∈ middle.deltas ↔
      v ∈ before.deltas ∨ v = p.view ∧ ¬ Holds before.deltas p.key := by
    intro v
    rw [takes.deltas]
    rfl
  refine ⟨?_,?_,?_⟩
  · intro v
    rw [grown.deltas,middleDeltas]
    constructor
    · rintro ((old | new) | ⟨q,inRest,same,fresh⟩)
      · exact .inl old
      · exact .inr ⟨p,by simp,new⟩
      · rw [takes.holds] at fresh
        exact .inr ⟨q,by simp [inRest],same,fun held => fresh (.inl held)⟩
    rintro (old | ⟨q,listed,same,fresh⟩)
    · exact .inl (.inl old)
    rcases List.mem_cons.mp listed with head | inRest
    · subst head
      exact .inl (.inr ⟨same,fresh⟩)
    by_cases again : q.key = p.key
    · have equal := repeated q inRest again
      subst equal
      exact .inl (.inr ⟨same,fresh⟩)
    · refine .inr ⟨q,inRest,same,?_⟩
      rw [takes.holds]
      exact fun held => held.elim fresh again
  · intro k covered
    have later : after.syms k = middle.syms k := by
      apply grown.kept k
      intro q inRest same
      rw [takes.holds]
      exact .inl (covered q (by simp [inRest]) same)
    rw [later]
    by_cases own : k = p.key
    · subst own
      rw [takes.known (covered p (by simp) rfl)]
    · exact takes.others k own
  · intro q listed fresh
    by_cases again : q.key = p.key
    · -- the key is settled by its first occurrence
      have equal : q = p := by
        rcases List.mem_cons.mp listed with head | inRest
        · exact head
        · exact repeated q inRest again
      subst equal
      obtain ⟨target,tagged,added⟩ := takes.added fresh
      refine ⟨target,tagged.mono grown.subset,?_⟩
      rw [grown.kept q.key,added]
      intro r _inRest _same
      rw [takes.holds]
      exact .inr rfl
    · rcases List.mem_cons.mp listed with head | inRest
      · exact absurd (congrArg Incoming.key head) again
      · apply grown.added q inRest
        rw [takes.holds]
        exact fun held => held.elim fresh again

theorem Run.grown (run : Run before ps after) (named : KeysName ps) : Grown before ps after := by
  induction run with
  | nil history => exact ⟨by simp,fun _ _ => rfl, by simp⟩
  | cons start next final p rest takes _run ih =>
    apply Grown.cons takes (ih _) named
    intro a memberA b memberB same
    exact named a (by simp [memberA]) b (by simp [memberB]) same

theorem Grown.unique {left right : History K Q} {qs : List (Incoming K Q)}
    (grownLeft : Grown before ps left) (grownRight : Grown before qs right)
    (same : ∀ p, p ∈ ps ↔ p ∈ qs) (keys : KeysUnique left.deltas) : left = right := by
  have deltas : left.deltas = right.deltas := by
    ext v
    rw [grownLeft.deltas,grownRight.deltas]
    simp only [same]
  have syms : left.syms = right.syms := by
    funext k
    by_cases covered : ∀ p ∈ ps, p.key = k → Holds before.deltas k
    · rw [grownLeft.kept k covered,grownRight.kept k]
      intro q member named
      exact covered q ((same q).mpr member) named
    push Not at covered
    obtain ⟨p,member,rfl,fresh⟩ := covered
    obtain ⟨target,tagged,added⟩ := grownLeft.added p member fresh
    obtain ⟨target',tagged',added'⟩ := grownRight.added p ((same p).mp member) fresh
    rw [← deltas] at tagged'
    rw [added,added',tagged.unique keys tagged']
  cases left
  cases right
  cases deltas
  cases syms
  rfl

def Incoming.references (p : Incoming K Q) : List K :=
  p.parent.toList ++ p.merge.toList ++ p.ptag.toList ++ p.mtag.toList ++ p.incs ++ p.excs

/-- A remote delta that can be taken: its references are known and sort before it, and a known delta
of its key is the same. -/
structure Acceptable [LinearOrder Q] (known : Set (KeyDelta K Q)) (p : Incoming K Q) : Prop where
  present : ∀ k ∈ p.references, ∃ v ∈ known, v.key = k ∧ v.rank < p.rank
  ranked : ∀ v ∈ known, v.rank = p.rank ↔ v.key = p.key
  lineage : ∀ v ∈ known, v.key = p.key → v.parent = p.parent ∧ v.merge = p.merge
  mergeNeedsParent : p.parent = none → p.merge = none
  mtagNeedsPtag : p.ptag = none → p.mtag = none
  tagHasParent : p.tag = true → p.parent ≠ none

def AcceptablePatch [LinearOrder Q] : Set (KeyDelta K Q) → List (Incoming K Q) → Prop
  | _, [] => True
  | known, p :: rest =>
    Acceptable known p ∧ (∀ q ∈ rest, p.rank < q.rank) ∧ AcceptablePatch (learn known p) rest

def AcceptablePatches [LinearOrder Q] : Set (KeyDelta K Q) → List (List (Incoming K Q)) → Prop
  | _, [] => True
  | known, ps :: rest => AcceptablePatch known ps ∧ AcceptablePatches (ps.foldl learn known) rest

theorem Run.deltas (run : Run before ps after) : after.deltas = ps.foldl learn before.deltas := by
  induction run with
  | nil history => rfl
  | cons start next final p rest takes _run ih =>
    rwa [List.foldl_cons,← takes.deltas]

end BitKeeper.CsetInsert
