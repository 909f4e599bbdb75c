import Undervest.Strings
import Undervest.Lib.Brackets

/-!
# The search filter

`openSource` extends the filter of an LDAP URL by a test that the entry has one of the
attributes.  It opens parentheses when the filter is not empty, and again when there is
a second attribute, and closes the first one when the filter is not a null pointer.

A filter is a tree whose text has no other reading (`Filter.text_injective`).  What is
built is balanced and has the meaning of the given filter and the presence of an
attribute exactly when the filter is neither a null pointer nor empty
(`locfilter_selects_iff`).
-/

namespace Undervest

open Brackets

/-! ## Filters -/

/-- A text that tests an entry, with no parenthesis in it. -/
abbrev Test := { s : Str // s ≠ [] ∧ ch '(' ∉ s ∧ ch ')' ∉ s }

inductive Connective where
  | and
  | or
deriving DecidableEq, Repr

def Connective.mark : Connective → Byte
  | and => ch '&'
  | or => ch '|'

inductive Filter where
  | item (test : Test)
  | node (op : Connective) (first : Filter) (others : List Filter)
  | not (f : Filter)

namespace Filter

mutual

def text : Filter → Str
  | item test => ch '(' :: (test.val ++ [ch ')'])
  | node op first others => ch '(' :: op.mark :: (first.text ++ (texts others ++ [ch ')']))
  | not f => ch '(' :: ch '!' :: (f.text ++ [ch ')'])

def texts : List Filter → Str
  | [] => []
  | f :: fs => f.text ++ texts fs

end

mutual

/-- Whether a filter holds of an entry, which is given by the tests it passes. -/
def holds (entry : Str → Bool) : Filter → Bool
  | item test => entry test.val
  | node .and first others => first.holds entry && holdAll entry others
  | node .or first others => first.holds entry || holdAny entry others
  | not f => !f.holds entry

def holdAll (entry : Str → Bool) : List Filter → Bool
  | [] => true
  | f :: fs => f.holds entry && holdAll entry fs

def holdAny (entry : Str → Bool) : List Filter → Bool
  | [] => false
  | f :: fs => f.holds entry || holdAny entry fs

end

/-! ## One reading -/

theorem text_eq_cons (f : Filter) : ∃ s, f.text = ch '(' :: s := by
  cases f <;> exact ⟨_, rfl⟩

/-- Behind a mark there is a filter, so a mark starts no test. -/
theorem test_ne_mark (test : Test) (m : Byte) (f : Filter) (u v : Str) :
    test.val ++ ch ')' :: u ≠ m :: (f.text ++ v) := by
  obtain ⟨s, hs⟩ := f.text_eq_cons
  obtain ⟨t, hne, hopen, hclose⟩ := test
  intro h
  rw [hs] at h
  obtain ⟨b, t, rfl⟩ := List.exists_cons_of_ne_nil hne
  have h := (List.cons.inj h).2
  cases t with
  | nil => exact absurd (List.cons.inj h).1 (by decide)
  | cons d t => exact hopen (by simp [(List.cons.inj h).1])

theorem mark_ne (op : Connective) : op.mark ≠ ch '!' := by
  cases op <;> decide

theorem mark_inj {op op' : Connective} (h : op.mark = op'.mark) : op = op' := by
  cases op <;> cases op' <;> first | rfl | exact absurd h (by decide)

@[simp] theorem item_append (test : Test) (u : Str) :
    (item test).text ++ u = ch '(' :: (test.val ++ ch ')' :: u) := by
  simp [text]

@[simp] theorem node_append (op : Connective) (f : Filter) (fs : List Filter) (u : Str) :
    (node op f fs).text ++ u = ch '(' :: op.mark :: (f.text ++ (texts fs ++ ch ')' :: u)) := by
  simp [text]

@[simp] theorem not_append (f : Filter) (u : Str) :
    (not f).text ++ u = ch '(' :: ch '!' :: (f.text ++ ch ')' :: u) := by
  simp [text]

mutual

theorem text_append_inj : ∀ (f g : Filter) (u v : Str), f.text ++ u = g.text ++ v → f = g ∧ u = v
  | item s, g, u, v, h => by
      rw [item_append] at h
      cases g with
      | item t =>
          rw [item_append] at h
          obtain ⟨hval, hrest⟩ := append_cons_inj s.2.2.2 t.2.2.2 (List.cons.inj h).2
          exact ⟨congrArg item (Subtype.ext hval), hrest⟩
      | node op g gs =>
          rw [node_append] at h
          exact absurd (List.cons.inj h).2 (test_ne_mark s _ g u _)
      | not g =>
          rw [not_append] at h
          exact absurd (List.cons.inj h).2 (test_ne_mark s _ g u _)
  | node op f fs, g, u, v, h => by
      rw [node_append] at h
      cases g with
      | item t =>
          rw [item_append] at h
          exact absurd (List.cons.inj h).2.symm (test_ne_mark t _ f v _)
      | node op' g gs =>
          rw [node_append, List.cons_inj_right, List.cons_eq_cons] at h
          obtain ⟨rfl, hrest⟩ := text_append_inj f g _ _ h.2
          obtain ⟨rfl, huv⟩ := texts_append_inj fs gs u v hrest
          exact ⟨by rw [mark_inj h.1], huv⟩
      | not g =>
          rw [not_append, List.cons_inj_right, List.cons_eq_cons] at h
          exact absurd h.1 (mark_ne op)
  | not f, g, u, v, h => by
      rw [not_append] at h
      cases g with
      | item t =>
          rw [item_append] at h
          exact absurd (List.cons.inj h).2.symm (test_ne_mark t _ f v _)
      | node op' g gs =>
          rw [node_append, List.cons_inj_right, List.cons_eq_cons] at h
          exact absurd h.1.symm (mark_ne op')
      | not g =>
          rw [not_append, List.cons_inj_right, List.cons_inj_right] at h
          obtain ⟨rfl, hrest⟩ := text_append_inj f g _ _ h
          exact ⟨rfl, (List.cons.inj hrest).2⟩

theorem texts_append_inj : ∀ (fs gs : List Filter) (u v : Str),
    texts fs ++ ch ')' :: u = texts gs ++ ch ')' :: v → fs = gs ∧ u = v
  | [], gs, u, v, h => by
      cases gs with
      | nil => exact ⟨rfl, (List.cons.inj h).2⟩
      | cons g gs =>
          obtain ⟨s, hs⟩ := g.text_eq_cons
          rw [texts, texts, hs] at h
          exact absurd (List.cons.inj h).1 (by decide)
  | f :: fs, gs, u, v, h => by
      cases gs with
      | nil =>
          obtain ⟨s, hs⟩ := f.text_eq_cons
          rw [texts, texts, hs] at h
          exact absurd (List.cons.inj h).1 (by decide)
      | cons g gs =>
          rw [texts, texts, List.append_assoc, List.append_assoc] at h
          obtain ⟨rfl, hrest⟩ := text_append_inj f g _ _ h
          obtain ⟨rfl, huv⟩ := texts_append_inj fs gs u v hrest
          exact ⟨rfl, huv⟩

end

/-- A filter is known by its text. -/
theorem text_injective {f g : Filter} (h : f.text = g.text) : f = g :=
  (text_append_inj f g [] [] (by rw [h])).1

mutual

theorem balanced_text : ∀ f : Filter, Balanced (ch '(') (ch ')') f.text
  | item test =>
      (Balanced.of_notMem test.2.2.1 test.2.2.2).enclose (by decide)
  | node op first others => by
      have hmark : Balanced (ch '(') (ch ')') [op.mark] :=
        .of_notMem (by cases op <;> decide) (by cases op <;> decide)
      have := ((hmark.append (balanced_text first)).append (balanced_texts others)).enclose
        (show ch '(' ≠ ch ')' by decide)
      simpa [text] using this
  | not f => by
      have hmark : Balanced (ch '(') (ch ')') [ch '!'] := .of_notMem (by decide) (by decide)
      have := (hmark.append (balanced_text f)).enclose (show ch '(' ≠ ch ')' by decide)
      simpa [text] using this

theorem balanced_texts : ∀ fs : List Filter, Balanced (ch '(') (ch ')') (texts fs)
  | [] => .of_notMem (by simp [texts]) (by simp [texts])
  | f :: fs => (balanced_text f).append (balanced_texts fs)

end

end Filter

/-! ## The search -/

/-- The filter of the search that `openSource` starts, from the filter of the URL, which
may be a null pointer, and the attributes.  A string cannot be assigned from a null
pointer. -/
def locfilter (filter : Option Str) (attrs : List Str) : Option Str := do
  let locfilter ← filter
  let locfilter :=
    if locfilter.length ≠ 0 then
      str "(&" ++ if locfilter.head? ≠ some (ch '(') then str "(" ++ locfilter ++ str ")"
        else locfilter
    else locfilter
  let locfilter := if attrs[1]? ≠ none then locfilter ++ str "(|" else locfilter
  let locfilter := attrs.foldl
    (fun locfilter s => locfilter ++ (str "(" ++ s ++ str "=*)")) locfilter
  let locfilter := if attrs[1]? ≠ none then locfilter ++ str ")" else locfilter
  pure (if filter ≠ none then locfilter ++ str ")" else locfilter)

/-- The filter that the filter part of a URL stands for, in parentheses or not. -/
inductive Given : Option Str → Option Filter → Prop where
  | null : Given none none
  | empty : Given (some []) none
  | enclosed (f : Filter) : Given (some f.text) (some f)
  | bare {s : Str} {f : Filter} : f.text = str "(" ++ s ++ str ")" → Given (some s) (some f)

/-- A text selects, of what the given filter selects, the entries that have one of the
attributes. -/
structure Selects (filter : Option Str) (attrs : List Str) (text : Str) : Prop where
  balanced : Balanced (ch '(') (ch ')') text
  means : ∀ given, Given filter given → ∃ f : Filter, (∀ g : Filter, g.text = text ↔ g = f) ∧
    ∀ entry, f.holds entry = true ↔
      (∀ g ∈ given, g.holds entry = true) ∧ ∃ a ∈ attrs, entry (a ++ str "=*") = true

/-- What is opened in front of the given filter. -/
def enclosed (f : Str) : Str :=
  if f.head? ≠ some (ch '(') then str "(" ++ f ++ str ")" else f

/-- What is built for the attributes. -/
def attrsText (attrs : List Str) : Str :=
  (if attrs[1]? ≠ none then str "(|" else []) ++
    (attrs.flatMap fun s => str "(" ++ s ++ str "=*)") ++
    if attrs[1]? ≠ none then str ")" else []

theorem locfilter_eq (f : Str) (attrs : List Str) :
    locfilter (some f) attrs =
      some ((if f ≠ [] then str "(&" ++ enclosed f else []) ++ attrsText attrs ++ str ")") := by
  have hfold : ∀ l : Str, attrs.foldl (fun l s => l ++ (str "(" ++ s ++ str "=*)")) l =
      l ++ attrs.flatMap fun s => str "(" ++ s ++ str "=*)" := by
    intro l
    rw [List.flatMap_def, ← List.foldl_append_eq_append]
  have hlen : f.length ≠ 0 ↔ f ≠ [] := not_congr List.length_eq_zero_iff
  rw [locfilter, attrsText]
  simp only [Option.bind_eq_bind, Option.bind_some, hfold, hlen, enclosed]
  by_cases hsecond : attrs[1]? ≠ none
  · simp only [if_pos hsecond]
    by_cases hf : f = [] <;> simp [hf]
  · simp only [if_neg hsecond]
    by_cases hf : f = [] <;> simp [hf]

namespace Filter

theorem balanced_enclosed {f : Str} (h : Balanced (ch '(') (ch ')') f) :
    Balanced (ch '(') (ch ')') (enclosed f) := by
  rw [enclosed]
  split
  next =>
    have := h.enclose (show ch '(' ≠ ch ')' by decide)
    rwa [← List.cons_append] at this
  next => exact h

/-- No filter starts with two parentheses. -/
theorem text_ne_double (f : Filter) (s : Str) : f.text ≠ ch '(' :: ch '(' :: s := by
  intro h
  cases f with
  | item test =>
      obtain ⟨t, hne, hopen, hclose⟩ := test
      obtain ⟨b, t, rfl⟩ := List.exists_cons_of_ne_nil hne
      rw [text, List.cons_inj_right] at h
      exact hopen (by simp [(List.cons.inj h).1])
  | node op first others =>
      rw [text, List.cons_inj_right] at h
      exact absurd (List.cons.inj h).1 (by cases op <;> decide)
  | not f =>
      rw [text, List.cons_inj_right] at h
      exact absurd (List.cons.inj h).1 (by decide)

/-- The filter that is given has its parentheses then. -/
theorem text_eq_enclosed {s : Str} {given : Option Filter} (h : Given (some s) given)
    (hne : s ≠ []) : ∃ g, given = some g ∧ g.text = enclosed s := by
  cases h with
  | empty => exact absurd rfl hne
  | enclosed g =>
      obtain ⟨t, ht⟩ := g.text_eq_cons
      refine ⟨g, rfl, ?_⟩
      rw [Undervest.enclosed, if_neg (by simp [ht])]
  | bare hg =>
      rename_i g
      refine ⟨g, rfl, ?_⟩
      have hhead : s.head? ≠ some (ch '(') := by
        intro hs
        obtain ⟨t, rfl⟩ := List.head?_eq_some_iff.mp hs
        exact text_ne_double g _ hg
      rw [Undervest.enclosed, if_pos hhead, hg]

/-- The filters of the attributes. -/
theorem exists_presences {attrs : List Str} (hattrs : ∀ a ∈ attrs, ch '(' ∉ a ∧ ch ')' ∉ a) :
    ∃ fs, fs.length = attrs.length ∧
      texts fs = (attrs.flatMap fun s => str "(" ++ s ++ str "=*)") ∧
      ∀ entry, holdAny entry fs = true ↔ ∃ a ∈ attrs, entry (a ++ str "=*") = true := by
  induction attrs with
  | nil => exact ⟨[], rfl, rfl, fun entry => by simp [holdAny]⟩
  | cons a attrs ih =>
      rw [List.forall_mem_cons] at hattrs
      obtain ⟨fs, hlen, htext, hholds⟩ := ih hattrs.2
      have htest : a ++ str "=*" ≠ [] ∧ ch '(' ∉ a ++ str "=*" ∧ ch ')' ∉ a ++ str "=*" := by
        rw [List.mem_append, List.mem_append, not_or, not_or]
        exact ⟨List.append_ne_nil_of_right_ne_nil _ (by decide), ⟨hattrs.1.1, by decide⟩,
          ⟨hattrs.1.2, by decide⟩⟩
      refine ⟨item ⟨a ++ str "=*", htest⟩ :: fs, by simp [hlen], ?_, fun entry => ?_⟩
      · rw [texts, htext, List.flatMap_cons, text, List.append_assoc a]
        rfl
      · rw [holdAny, Bool.or_eq_true, hholds, List.exists_mem_cons_iff]
        exact Iff.rfl

/-- The filter of the attributes. -/
theorem exists_presence {attrs : List Str} (hne : attrs ≠ [])
    (hattrs : ∀ a ∈ attrs, ch '(' ∉ a ∧ ch ')' ∉ a) :
    ∃ f : Filter, f.text = attrsText attrs ∧
      ∀ entry, f.holds entry = true ↔ ∃ a ∈ attrs, entry (a ++ str "=*") = true := by
  obtain ⟨fs, hlen, htext, hholds⟩ := exists_presences hattrs
  rw [attrsText, ← htext]
  simp only [ne_eq, List.getElem?_eq_none_iff, ← hlen]
  match fs with
  | [] => exact absurd (List.length_eq_zero_iff.mp hlen.symm) hne
  | [f] =>
      refine ⟨f, by simp [texts], fun entry => ?_⟩
      rw [← hholds, holdAny, holdAny, Bool.or_false]
  | f :: g :: fs =>
      refine ⟨node .or f (g :: fs), ?_, fun entry => ?_⟩
      · rw [if_pos (by simp), if_pos (by simp), text, texts, texts, texts]
        simp [str, Connective.mark]
      · rw [← hholds, holds, ← holdAny]

end Filter

/-- **When the search selects what it is asked for.** -/
theorem locfilter_selects_iff {filter : Option Str} {attrs : List Str} (hne : attrs ≠ [])
    (hattrs : ∀ a ∈ attrs, ch '(' ∉ a ∧ ch ')' ∉ a)
    (hfilter : ∀ f ∈ filter, Balanced (ch '(') (ch ')') f) :
    (∃ text, locfilter filter attrs = some text ∧ Selects filter attrs text) ↔
      ∃ f, filter = some f ∧ f ≠ [] := by
  obtain ⟨present, htext, hholds⟩ := Filter.exists_presence hne hattrs
  cases filter with
  | none => exact iff_of_false (by simp [locfilter]) (by simp)
  | some f =>
      rw [locfilter_eq, ← htext]
      by_cases hf : f = []
      · refine iff_of_false ?_ (by simp [hf])
        rintro ⟨text, hsome, hselects⟩
        rw [if_neg (not_not.mpr hf), List.nil_append, Option.some.injEq] at hsome
        exact (Filter.balanced_text present).not_append_close (by decide)
          (hsome ▸ hselects.balanced)
      · refine iff_of_true ⟨_, rfl, ?_, fun given hgiven => ?_⟩ ⟨f, rfl, hf⟩
        · have hmark : Balanced (ch '(') (ch ')') (str "&") := .of_notMem (by decide) (by decide)
          have := ((hmark.append (Filter.balanced_enclosed (hfilter f rfl))).append
            (Filter.balanced_text present)).enclose (show ch '(' ≠ ch ')' by decide)
          rw [if_pos hf]
          exact this
        · obtain ⟨g, rfl, hg⟩ := Filter.text_eq_enclosed hgiven hf
          have hreading : (Filter.node .and g [present]).text =
              str "(&" ++ enclosed f ++ present.text ++ str ")" := by
            rw [Filter.text, Filter.texts, Filter.texts, hg, List.append_nil, ← List.append_assoc]
            rfl
          rw [if_pos hf, ← hreading]
          refine ⟨_, fun g' => ⟨Filter.text_injective, congrArg Filter.text⟩, fun entry => ?_⟩
          rw [Filter.holds, Filter.holdAll, Filter.holdAll, Bool.and_true, Bool.and_eq_true,
            hholds]
          simp

theorem locfilter_selects_sample :
    (∃ text, locfilter (some (str "(uid=x)")) [str "mail", str "alias"] = some text ∧
        Selects (some (str "(uid=x)")) [str "mail", str "alias"] text) ↔
      ∃ f, some (str "(uid=x)") = some f ∧ f ≠ [] :=
  locfilter_selects_iff (by decide) (by decide +kernel) fun _ hf =>
    Option.some.inj hf ▸ (Balanced.of_notMem (s := str "uid=x") (by decide) (by decide)).enclose
      (by decide)

/-- An empty filter leaves a closing parenthesis, and a null pointer no filter. -/
theorem locfilter_unbalanced :
    (¬ ∃ text, locfilter (some []) [str "mail"] = some text ∧
        Selects (some []) [str "mail"] text) ∧
      ¬ ∃ text, locfilter none [str "mail"] = some text ∧ Selects none [str "mail"] text := by
  refine ⟨?_, by simp [locfilter]⟩
  rintro ⟨text, htext, hselects⟩
  have hbuilt : locfilter (some []) [str "mail"] = some (str "(mail=*))") := by decide +kernel
  rw [hbuilt, Option.some.injEq] at htext
  have htotal := hselects.balanced.total
  rw [← htext] at htotal
  exact absurd htotal (by decide +kernel)

end Undervest
