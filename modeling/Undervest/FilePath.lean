import Undervest.Strings
import Mathlib.Data.List.Flatten

/-!
# File paths

A path is a list of components and a flag that tells whether it is relative.
`assign` splits a text at its slashes and drops the empty pieces, then
`normalize` removes the components `.` and `..` as far as possible.  `get` puts
the text together again.

`Normal` is what `normalize` leaves: no component is `.`, and a `..` stands
behind other ones only, and only in a relative path.  A path in this form comes
back from its own text (`assign_join`, `assign_slashes`).
-/

namespace Undervest

/-- `FilePath`. -/
structure FilePath where
  relative : Bool
  components : List Str
deriving DecidableEq, Repr

namespace FilePath

/-- `FilePath::clear`. -/
def clear : FilePath := ⟨true, []⟩

/-! ## Taking a text apart -/

/-- The loop of `assign`, with a bound on its turns. -/
def splitLoop : Nat → Str → List Str
  | 0, _ => []
  | turns + 1, path =>
      match path.dropWhile (· == ch '/') with
      | [] => []
      | c :: p =>
          (c :: p).takeWhile (· != ch '/') ::
            splitLoop turns ((c :: p).dropWhile (· != ch '/'))

/-- One turn of the loop of `normalize` at the component `p`, with the components kept so
far as a stack: a `.` is dropped, and a `..` takes the last name back.  Without one it
is kept, but not at the root. -/
def normalizeTurn (relative : Bool) (kept : List Str) (p : Str) : List Str :=
  if p = str "." then kept
  else if p = str ".." then
    match kept with
    | [] => if relative then [p] else []
    | q :: kept' => if q ≠ str ".." then kept' else p :: kept
  else p :: kept

/-- `FilePath::normalize`, as the stack reads the path. -/
def normalize (f : FilePath) : FilePath :=
  { f with components := (f.components.foldl (normalizeTurn f.relative) []).reverse }

/-- `FilePath::assign`, into an empty path.  Each turn of the loop takes at least
one character. -/
def assign (path : Str) : FilePath :=
  normalize ⟨path.head? != some (ch '/'), splitLoop path.length path⟩

/-! ## Putting it together -/

/-- The components with slashes between them. -/
def join : List Str → Str
  | [] => []
  | [c] => c
  | c :: rest => c ++ ch '/' :: join rest

theorem join_cons {c : Str} {rest : List Str} (h : rest ≠ []) :
    join (c :: rest) = c ++ ch '/' :: join rest := by
  cases rest with
  | nil => exact absurd rfl h
  | cons d rest => rfl

/-- The first component starts the text, and a slash follows it if anything does. -/
theorem join_eq_append (c : Str) (rest : List Str) :
    ∃ y, join (c :: rest) = c ++ y ∧ ∀ b ∈ y.head?, b = ch '/' := by
  cases rest with
  | nil => exact ⟨[], by simp [join], by simp⟩
  | cons d rest => exact ⟨ch '/' :: join (d :: rest), rfl, by simp⟩

theorem join_ne_nil {components : List Str} (h : components ≠ [])
    (hne : ∀ c ∈ components, c ≠ []) : join components ≠ [] := by
  obtain ⟨c, rest, rfl⟩ := List.exists_cons_of_ne_nil h
  obtain ⟨y, hy, -⟩ := join_eq_append c rest
  rw [hy]
  exact List.append_ne_nil_of_left_ne_nil (hne c (List.mem_cons_self ..)) y

/-- The text starts like the first component, with no slash. -/
theorem join_head {components : List Str} (h : ∀ c ∈ components, c ≠ [] ∧ ch '/' ∉ c) :
    ∀ b ∈ (join components).head?, b ≠ ch '/' ∧ ∃ c ∈ components.head?, b ∈ c.head? := by
  intro b hb
  cases components with
  | nil => cases hb
  | cons c rest =>
      obtain ⟨hne, hslash⟩ := h c (List.mem_cons_self ..)
      obtain ⟨b', c, rfl⟩ := List.exists_cons_of_ne_nil hne
      obtain ⟨y, hy, -⟩ := join_eq_append (b' :: c) rest
      rw [hy] at hb
      obtain rfl : b' = b := Option.some.inj hb
      exact ⟨fun hb => hslash (hb ▸ List.mem_cons_self ..), b' :: c, rfl, rfl⟩

/-- The loop of `get`, which goes over the components from the last one: the text so
far, and what comes between it and the next component. -/
def getLoop (d : Str) : List Str → Str × Str
  | [] => ([], d)
  | c :: rest => (c ++ (getLoop d rest).2 ++ (getLoop d rest).1, [ch '/'])

/-- `FilePath::get`, with a slash behind a directory. -/
def getAs (f : FilePath) (asDir : Bool) : Str :=
  let loop := getLoop (if asDir then [ch '/'] else []) f.components
  if f.relative = false then ch '/' :: loop.1
  else if loop.1.length = 0 then str "." ++ loop.2
  else loop.1

/-- `FilePath::get`, as a file. -/
def get (f : FilePath) : Str := f.getAs false

/-- No path has an empty text. -/
theorem get_ne_nil (f : FilePath) : f.get ≠ [] := by
  rw [get, getAs]
  generalize getLoop _ f.components = loop
  split
  next => exact List.cons_ne_nil _ _
  next =>
    split
    next => exact List.append_ne_nil_of_left_ne_nil (show str "." ≠ [] by decide) _
    next h => exact fun hnil => h (congrArg List.length hnil)

/-- What the loop of `get` leaves. -/
theorem getLoop_eq (d : Str) {components : List Str} (h : components ≠ []) :
    getLoop d components = (join components ++ d, [ch '/']) := by
  induction components with
  | nil => exact absurd rfl h
  | cons c rest ih =>
      cases rest with
      | nil => simp [getLoop, join]
      | cons q rest => simp [getLoop.eq_2 d c, ih, join]

theorem getAs_absolute (asDir : Bool) {f : FilePath} (hrel : f.relative = false)
    (h : f.components ≠ []) :
    f.getAs asDir = ch '/' :: (join f.components ++ if asDir then [ch '/'] else []) := by
  rw [getAs, getLoop_eq _ h]
  exact if_pos hrel

theorem getAs_relative (asDir : Bool) {f : FilePath} (hrel : f.relative = true)
    (h : f.components ≠ []) (hne : ∀ c ∈ f.components, c ≠ []) :
    f.getAs asDir = join f.components ++ if asDir then [ch '/'] else [] := by
  have hjoin := join_ne_nil h hne
  rw [getAs, getLoop_eq _ h, if_neg (by simp [hrel])]
  exact if_neg (by simp [hjoin])

/-! ## Normal paths -/

/-- What `normalize` leaves of the components. -/
structure NormalComponents (relative : Bool) (components : List Str) : Prop where
  noDot : str "." ∉ components
  parents : components.Pairwise fun a b => b = str ".." → a = str ".."
  root : relative = false → str ".." ∉ components

/-- The components of a path that `assign` built. -/
structure Normal (f : FilePath) : Prop extends NormalComponents f.relative f.components where
  piece : ∀ c ∈ f.components, c ≠ [] ∧ ch '/' ∉ c

theorem NormalComponents.sublist {relative : Bool} {l l' : List Str}
    (h : NormalComponents relative l) (hs : l'.Sublist l) : NormalComponents relative l' where
  noDot hm := h.noDot (hs.mem hm)
  parents := h.parents.sublist hs
  root hrel hm := h.root hrel (hs.mem hm)

/-- A turn at a `..` behind another component. -/
theorem normalizeTurn_parent (relative : Bool) (q : Str) (kept : List Str) :
    normalizeTurn relative (q :: kept) (str "..") =
      if q ≠ str ".." then kept else str ".." :: q :: kept := by
  rw [normalizeTurn, if_neg (by decide), if_pos rfl]

/-- What one turn does: it keeps the component, or it drops it, or it takes the
last one back. -/
theorem normalizeTurn_cases (relative : Bool) (kept : List Str) (p : Str) :
    (normalizeTurn relative kept p = p :: kept ∧ p ≠ str "." ∧
        (p = str ".." → (kept = [] → relative = true) ∧ ∀ q ∈ kept.head?, q = str "..")) ∨
      normalizeTurn relative kept p = kept ∨ normalizeTurn relative kept p = kept.tail := by
  unfold normalizeTurn
  split
  next => exact Or.inr (Or.inl rfl)
  next hdot =>
    split
    next hdd =>
      cases kept with
      | nil =>
          cases relative with
          | false => exact Or.inr (Or.inl rfl)
          | true => exact Or.inl ⟨rfl, hdot, fun _ => ⟨fun _ => rfl, by simp⟩⟩
      | cons q kept =>
          by_cases hq : q = str ".."
          · exact Or.inl ⟨by simp [hq], hdot, fun _ => ⟨by simp, by simp [hq]⟩⟩
          · exact Or.inr (Or.inr (by simp [hq]))
    next hdd => exact Or.inl ⟨rfl, hdot, fun h => absurd h hdd⟩

/-- A turn at a component that a normal path may have there keeps it. -/
theorem normalizeTurn_keeps {relative : Bool} {kept : List Str} {p : Str}
    (h : NormalComponents relative (p :: kept).reverse) :
    normalizeTurn relative kept p = p :: kept := by
  have hdot : p ≠ str "." := by
    rintro rfl
    exact h.noDot (by simp)
  unfold normalizeTurn
  rw [if_neg hdot]
  split
  next hdd =>
    cases kept with
    | nil =>
        cases relative with
        | false => exact absurd (by simp [hdd]) (h.root rfl)
        | true => rfl
    | cons q kept =>
        have hp := h.parents
        rw [List.reverse_cons, List.pairwise_append] at hp
        have hq : q = str ".." := hp.2.2 q (by simp) p (by simp) hdd
        simp [hq]
  next => rfl

/-- A turn leaves normal components normal. -/
theorem normalizeTurn_normal {relative : Bool} {kept : List Str}
    (h : NormalComponents relative kept.reverse) (p : Str) :
    NormalComponents relative (normalizeTurn relative kept p).reverse := by
  rcases normalizeTurn_cases relative kept p with ⟨he, hdot, hdd⟩ | he | he
  · rw [he]
    refine ⟨?_, ?_, ?_⟩
    · simpa [Ne.symm hdot] using h.noDot
    · rw [List.reverse_cons, List.pairwise_append]
      refine ⟨h.parents, List.pairwise_singleton .., ?_⟩
      intro a ha b hb hbdd
      obtain rfl := List.mem_singleton.mp hb
      -- the last component is `..`, and so are all before it
      cases kept with
      | nil => cases ha
      | cons q kept =>
          have hq : q = str ".." := (hdd hbdd).2 q rfl
          rw [List.reverse_cons, List.mem_append, List.mem_singleton] at ha
          have hp := h.parents
          rw [List.reverse_cons, List.pairwise_append] at hp
          exact ha.elim (fun ha => hp.2.2 a ha q (by simp) hq) fun ha => ha.trans hq
    · intro hrel hmem
      rw [List.mem_reverse, List.mem_cons] at hmem
      cases hmem with
      | inl hp =>
          cases kept with
          | nil => exact absurd ((hdd hp.symm).1 rfl) (by simp [hrel])
          | cons q kept =>
              exact h.root hrel (by simp [(hdd hp.symm).2 q rfl])
      | inr hk => exact h.root hrel (List.mem_reverse.mpr hk)
  · rwa [he]
  · rw [he]
    exact h.sublist (List.tail_sublist kept).reverse

theorem foldl_normalizeTurn_normal {relative : Bool} (rest : List Str) {kept : List Str}
    (h : NormalComponents relative kept.reverse) :
    NormalComponents relative (rest.foldl (normalizeTurn relative) kept).reverse := by
  induction rest generalizing kept with
  | nil => exact h
  | cons p rest ih => exact ih (normalizeTurn_normal h p)

/-- Each component comes from the text. -/
theorem mem_foldl_normalizeTurn {relative : Bool} {rest kept : List Str} {c : Str}
    (h : c ∈ rest.foldl (normalizeTurn relative) kept) : c ∈ kept ∨ c ∈ rest := by
  induction rest generalizing kept with
  | nil => exact Or.inl h
  | cons p rest ih =>
      cases ih h with
      | inr hr => exact Or.inr (List.mem_cons_of_mem _ hr)
      | inl hk =>
          rcases normalizeTurn_cases relative kept p with ⟨he, -, -⟩ | he | he
          · rw [he, List.mem_cons] at hk
            cases hk with
            | inl hp => exact Or.inr (hp ▸ List.mem_cons_self ..)
            | inr hk => exact Or.inl hk
          · exact Or.inl (he ▸ hk)
          · rw [he] at hk
            exact Or.inl (List.mem_of_mem_tail hk)

/-- Normal components stay as they are. -/
theorem foldl_normalizeTurn_keeps {relative : Bool} (rest : List Str) {kept : List Str}
    (h : NormalComponents relative (kept.reverse ++ rest)) :
    rest.foldl (normalizeTurn relative) kept = rest.reverse ++ kept := by
  induction rest generalizing kept with
  | nil => rfl
  | cons p rest ih =>
      have hprefix : NormalComponents relative (p :: kept).reverse := by
        refine h.sublist ?_
        rw [List.reverse_cons]
        exact (List.Sublist.refl _).append (by simp)
      rw [List.foldl_cons, normalizeTurn_keeps hprefix, ih (by simpa using h)]
      simp

theorem normalize_of_normal {relative : Bool} {components : List Str}
    (h : NormalComponents relative components) :
    normalize ⟨relative, components⟩ = ⟨relative, components⟩ := by
  rw [normalize, foldl_normalizeTurn_keeps components (by simpa using h)]
  simp

/-! ## Texts and components -/

theorem splitLoop_pieces {turns : Nat} {path : Str} :
    ∀ c ∈ splitLoop turns path, c ≠ [] ∧ ch '/' ∉ c := by
  induction turns generalizing path with
  | zero => simp [splitLoop]
  | succ turns ih =>
      intro c hc
      rw [splitLoop] at hc
      split at hc
      next => cases hc
      next b p hb =>
          cases List.mem_cons.mp hc with
          | inr hc => exact ih c hc
          | inl hc =>
              have hslash : (b != ch '/') = true := by
                have := List.head?_dropWhile_not (· == ch '/') path
                simpa [hb] using this
              subst hc
              refine ⟨by simp [hslash], fun hm => ?_⟩
              simpa using List.mem_takeWhile_imp hm

/-- A slash in front makes no component. -/
theorem splitLoop_slash (turns : Nat) (path : Str) :
    splitLoop turns (ch '/' :: path) = splitLoop turns path := by
  cases turns with
  | zero => rfl
  | succ turns => simp [splitLoop, List.dropWhile_cons]

/-- One turn at a piece takes it off. -/
theorem splitLoop_piece {c q : Str} (hne : c ≠ []) (hslash : ch '/' ∉ c)
    (hq : q = [] ∨ ∃ q', q = ch '/' :: q') (turns : Nat) :
    splitLoop (turns + 1) (c ++ q) = c :: splitLoop turns q := by
  obtain ⟨b, c, rfl⟩ := List.exists_cons_of_ne_nil hne
  have hall : ∀ x ∈ b :: c, (x != ch '/') = true := by
    intro x hx
    rw [bne_iff_ne]
    rintro rfl
    exact hslash hx
  have hb : (b :: (c ++ q)).dropWhile (· == ch '/') = b :: (c ++ q) :=
    List.dropWhile_cons_of_neg (by simpa using hall b (List.mem_cons_self ..))
  have hstop : q.takeWhile (· != ch '/') = [] ∧ q.dropWhile (· != ch '/') = q := by
    cases hq with
    | inl hq => simp [hq]
    | inr hq =>
        obtain ⟨q', rfl⟩ := hq
        simp
  have htake : (b :: (c ++ q)).takeWhile (· != ch '/') = b :: c := by
    rw [← List.cons_append, List.takeWhile_append_of_pos hall, hstop.1, List.append_nil]
  have hdrop : (b :: (c ++ q)).dropWhile (· != ch '/') = q := by
    rw [← List.cons_append, List.dropWhile_append_of_pos hall, hstop.2]
  rw [List.cons_append, splitLoop, hb]
  simp only [htake, hdrop]

/-- Pieces that were joined are found again. -/
theorem splitLoop_join {components : List Str} (h : ∀ c ∈ components, c ≠ [] ∧ ch '/' ∉ c)
    {turns : Nat} (ht : components.length ≤ turns) :
    splitLoop turns (join components) = components := by
  induction components generalizing turns with
  | nil => cases turns <;> rfl
  | cons c rest ih =>
      obtain ⟨⟨hne, hslash⟩, hrest⟩ := List.forall_mem_cons.mp h
      cases turns with
      | zero => simp at ht
      | succ turns =>
          have htail := ih hrest (Nat.le_of_succ_le_succ ht)
          by_cases hr : rest = []
          · subst hr
            have := splitLoop_piece hne hslash (Or.inl rfl) turns
            rwa [List.append_nil, show splitLoop turns [] = [] from htail] at this
          · rw [join_cons hr, splitLoop_piece hne hslash (Or.inr ⟨_, rfl⟩), splitLoop_slash, htail]

theorem length_le_length_join {components : List Str} (h : ∀ c ∈ components, c ≠ []) :
    components.length ≤ (join components).length := by
  induction components with
  | nil => rfl
  | cons c rest ih =>
      obtain ⟨hne, hrest⟩ := List.forall_mem_cons.mp h
      have hpos := List.length_pos_iff.mpr hne
      have := ih hrest
      by_cases hr : rest = []
      · subst hr
        simpa [join] using Nat.succ_le_of_lt hpos
      · rw [join_cons hr, List.length_append, List.length_cons, List.length_cons]
        omega

/-- `assign` builds a normal path. -/
theorem assign_normal (path : Str) : (assign path).Normal where
  toNormalComponents := foldl_normalizeTurn_normal _ ⟨by simp, by simp, by simp⟩
  piece c hc := by
    cases mem_foldl_normalizeTurn (List.mem_reverse.mp hc) with
    | inl h => cases h
    | inr h => exact splitLoop_pieces c h

/-- A relative path comes back from its components. -/
theorem assign_join {f : FilePath} (h : f.Normal) (hrel : f.relative = true) :
    assign (join f.components) = f := by
  obtain ⟨relative, components⟩ := f
  obtain rfl : relative = true := hrel
  have hhead : ((join components).head? != some (ch '/')) = true :=
    bne_iff_ne.mpr fun he => (join_head h.piece _ he).1 rfl
  rw [assign, hhead, splitLoop_join h.piece (length_le_length_join fun c hc => (h.piece c hc).1),
    normalize_of_normal h.toNormalComponents]

/-- An absolute path comes back from its components behind some slashes. -/
theorem assign_slashes {f : FilePath} (h : f.Normal) (hrel : f.relative = false) (n : Nat) :
    assign (List.replicate (n + 1) (ch '/') ++ join f.components) = f := by
  obtain ⟨relative, components⟩ := f
  obtain rfl : relative = false := hrel
  have hsplit : ∀ (n turns : Nat), components.length ≤ turns →
      splitLoop turns (List.replicate n (ch '/') ++ join components) = components := by
    intro n turns ht
    induction n with
    | zero => exact splitLoop_join h.piece ht
    | succ n ih => rw [List.replicate_succ, List.cons_append, splitLoop_slash, ih]
  have hlen := length_le_length_join fun c hc => (h.piece c hc).1
  rw [assign, hsplit _ _ (by simp only [List.length_append]; exact Nat.le_add_left_of_le hlen)]
  exact normalize_of_normal h.toNormalComponents

/-! ## A component in front -/

/-- As many turns as characters are enough. -/
theorem splitLoop_turns {n m : Nat} {path : Str} (hn : path.length ≤ n) (hm : path.length ≤ m) :
    splitLoop n path = splitLoop m path := by
  have hnil : ∀ n, splitLoop n [] = [] := by
    intro n
    cases n <;> rfl
  induction n generalizing m path with
  | zero =>
      obtain rfl := List.length_eq_zero_iff.mp (Nat.le_zero.mp hn)
      rw [hnil, hnil]
  | succ n ih =>
      cases m with
      | zero =>
          obtain rfl := List.length_eq_zero_iff.mp (Nat.le_zero.mp hm)
          rw [hnil, hnil]
      | succ m =>
          rw [splitLoop, splitLoop]
          split
          next => rfl
          next c p hc =>
            have hslash : (c != ch '/') = true := by
              have := List.head?_dropWhile_not (· == ch '/') path
              simpa [hc] using this
            have hlen : (c :: p).length ≤ path.length := hc ▸ (List.dropWhile_suffix _).length_le
            have hdrop : ((c :: p).dropWhile (· != ch '/')).length ≤ p.length := by
              rw [List.dropWhile_cons_of_pos (by exact hslash)]
              exact (List.dropWhile_suffix _).length_le
            rw [List.length_cons] at hlen
            rw [ih (by omega) (show _ ≤ m by omega)]

/-- Some `..` of an absolute path stands where the path so far is the root. -/
def LeavesRoot (path : Str) : Prop :=
  ∃ before behind, splitLoop path.length path = before ++ str ".." :: behind ∧
    before.foldl (normalizeTurn false) [] = []

/-- The first component stays, or a `..` takes it off. -/
theorem foldl_normalizeTurn_first {c : Str} (hc : c ≠ str "..") (rest kept : List Str) :
    rest.foldl (normalizeTurn false) (kept ++ [c]) = rest.foldl (normalizeTurn false) kept ++ [c] ∨
      rest.foldl (normalizeTurn false) (kept ++ [c]) = rest.foldl (normalizeTurn false) kept ∧
        ∃ before behind, rest = before ++ str ".." :: behind ∧
          before.foldl (normalizeTurn false) kept = [] := by
  have hcdd : normalizeTurn false [c] (str "..") = [] := by
    rw [normalizeTurn_parent, if_pos hc]
  induction rest generalizing kept with
  | nil => exact Or.inl rfl
  | cons p rest ih =>
      by_cases hroot : kept = [] ∧ p = str ".."
      · obtain ⟨rfl, rfl⟩ := hroot
        refine Or.inr ⟨?_, [], rest, rfl, rfl⟩
        rw [List.foldl_cons, List.nil_append, hcdd]
        rfl
      · have hturn : normalizeTurn false (kept ++ [c]) p = normalizeTurn false kept p ++ [c] := by
          unfold normalizeTurn
          split
          next => rfl
          next =>
            split
            next hp =>
              cases kept with
              | nil => exact absurd ⟨rfl, hp⟩ hroot
              | cons q kept =>
                  rw [List.cons_append]
                  dsimp only
                  split <;> rfl
            next => rfl
        rw [List.foldl_cons, List.foldl_cons, hturn]
        refine (ih (normalizeTurn false kept p)).imp id ?_
        rintro ⟨he, before, behind, rfl, hbefore⟩
        exact ⟨he, p :: before, behind, rfl, hbefore⟩

/-- A component in front of an absolute path changes it, unless the path leaves the
root. -/
theorem assign_first {c path : Str} (hne : c ≠ []) (hslash : ch '/' ∉ c) (hdot : c ≠ str ".")
    (hdd : c ≠ str "..") (hpath : path.head? = some (ch '/')) :
    assign (str "//" ++ (c ++ path)) = assign path ↔ LeavesRoot path := by
  have hpieces : splitLoop (str "//" ++ (c ++ path)).length (str "//" ++ (c ++ path)) =
      c :: splitLoop path.length path := by
    have hq : path = [] ∨ ∃ q', path = ch '/' :: q' :=
      Or.inr (List.head?_eq_some_iff.mp hpath)
    rw [show str "//" ++ (c ++ path) = ch '/' :: ch '/' :: (c ++ path) from rfl, splitLoop_slash,
      splitLoop_slash, List.length_cons, List.length_cons, splitLoop_piece hne hslash hq,
      splitLoop_turns (m := path.length) (by rw [List.length_append]; omega) (Nat.le_refl _)]
  have hturn : normalizeTurn false [] c = [c] := by
    rw [normalizeTurn, if_neg hdot, if_neg hdd]
  have hrel : (str "//" ++ (c ++ path)).head? = path.head? := by
    rw [hpath]
    rfl
  rw [assign, assign, hpieces, hrel, hpath, LeavesRoot]
  generalize splitLoop path.length path = rest
  simp only [normalize, List.foldl_cons, FilePath.mk.injEq, true_and, List.reverse_inj,
    show ((some (ch '/') != some (ch '/')) = false) from rfl, hturn]
  constructor
  · intro h
    rcases foldl_normalizeTurn_first hdd rest [] with hfirst | hfirst
    · have hlen := congrArg List.length (hfirst.symm.trans h)
      simp at hlen
    · exact hfirst.2
  · rintro ⟨before, behind, rfl, hbefore⟩
    have hroot : normalizeTurn false (before.foldl (normalizeTurn false) [c]) (str "..") = [] := by
      rcases foldl_normalizeTurn_first hdd before [] with h | h
      · rw [show [c] = [] ++ [c] from rfl, h, hbefore]
        exact if_pos hdd
      · rw [show [c] = [] ++ [c] from rfl, h.1, hbefore]
        rfl
    rw [List.foldl_append, List.foldl_append, List.foldl_cons, List.foldl_cons, hroot, hbefore]
    rfl

/-! ## Lengths -/

theorem foldl_normalizeTurn_sublist {relative : Bool} (rest kept : List Str) :
    (rest.foldl (normalizeTurn relative) kept).reverse.Sublist (kept.reverse ++ rest) := by
  induction rest generalizing kept with
  | nil => simp
  | cons p rest ih =>
      refine (ih _).trans ?_
      rw [List.append_cons]
      refine List.Sublist.append ?_ (List.Sublist.refl rest)
      rcases normalizeTurn_cases relative kept p with ⟨he, -, -⟩ | he | he
      · rw [he, List.reverse_cons]
      · rw [he]
        exact List.sublist_append_left ..
      · rw [he]
        exact (List.tail_sublist kept).reverse.trans (List.sublist_append_left ..)

theorem splitLoop_sublist (turns : Nat) (path : Str) :
    (splitLoop turns path).flatten.Sublist path := by
  induction turns generalizing path with
  | zero => simp [splitLoop]
  | succ turns ih =>
      rw [splitLoop]
      split
      next => simp
      next c p hc =>
        have hsuffix : (c :: p).Sublist path := hc ▸ (List.dropWhile_suffix _).sublist
        refine List.Sublist.trans ?_ hsuffix
        rw [List.flatten_cons]
        conv_rhs => rw [← List.takeWhile_append_dropWhile (p := (· != ch '/')) (l := c :: p)]
        exact (List.Sublist.refl _).append (ih _)

/-- The characters of a path are characters of its text, in order. -/
theorem assign_sublist (path : Str) : (assign path).components.flatten.Sublist path :=
  ((foldl_normalizeTurn_sublist _ []).flatten).trans (splitLoop_sublist _ path)

/-- Between the components there are slashes only. -/
theorem countP_join (components : List Str) :
    (join components).countP (· != ch '/') = components.flatten.countP (· != ch '/') := by
  induction components with
  | nil => rfl
  | cons c rest ih =>
      by_cases hr : rest = []
      · simp [hr, join]
      · rw [join_cons hr, List.flatten_cons, List.countP_append, List.countP_append,
          List.countP_cons, ih]
        simp

theorem get_absolute {f : FilePath} (hrel : f.relative = false) :
    f.get = ch '/' :: join f.components := by
  by_cases h : f.components = []
  · rw [get, getAs, h]
    exact if_pos hrel
  · rw [get, getAs_absolute false hrel h]
    exact congrArg _ (List.append_nil _)

/-- The text of a path has the characters of its components, apart from slashes. -/
theorem countP_get {f : FilePath} (h : f.components ≠ [] ∨ f.relative = false)
    (hne : ∀ c ∈ f.components, c ≠ []) :
    f.get.countP (· != ch '/') = f.components.flatten.countP (· != ch '/') := by
  rw [← countP_join]
  cases hrel : f.relative with
  | false => rw [get_absolute hrel, List.countP_cons_of_neg (by decide)]
  | true =>
      have hc := h.resolve_right (by simp [hrel])
      rw [get, getAs_relative false hrel hc hne]
      exact congrArg _ (List.append_nil _)

end FilePath

end Undervest
