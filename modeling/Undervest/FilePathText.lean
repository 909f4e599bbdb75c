import Undervest.FilePath

/-!
# The text of a path

`FilePath::assign` cuts a text at its slashes and leaves out what is empty
(`pieces`, `assign_eq`).  `FilePath::get` puts slashes between the components, one
in front for an absolute path and one behind for a directory.  What it prints has the
components for its pieces, and so the path comes back (`assign_getAs`).  The two paths
without a component have texts of their own, `/` and `.`.
-/

namespace Undervest.FilePath

/-! ## Pieces -/

/-- What stands between the slashes. -/
def pieces (path : Str) : List Str := (path.splitOn (ch '/')).filter (· ≠ [])

theorem pieces_append_slash (s t : Str) : pieces (s ++ ch '/' :: t) = pieces s ++ pieces t := by
  rw [pieces, List.splitOn_append_cons_self, List.filter_append]
  rfl

theorem pieces_slash (s : Str) : pieces (ch '/' :: s) = pieces s :=
  pieces_append_slash [] s

theorem pieces_piece {c : Str} (hne : c ≠ []) (hslash : ch '/' ∉ c) : pieces c = [c] := by
  rw [pieces, List.splitOn_eq_singleton hslash]
  simp [hne]

/-- The loop of `assign` finds the pieces. -/
theorem splitLoop_eq {turns : Nat} {path : Str} (h : path.length ≤ turns) :
    splitLoop turns path = pieces path := by
  induction turns generalizing path with
  | zero =>
      rw [List.length_eq_zero_iff.mp (Nat.le_zero.mp h)]
      rfl
  | succ turns ih =>
      by_cases hslash : ch '/' ∈ path
      · obtain ⟨c, q, rfl, hc⟩ := List.eq_append_cons_of_mem hslash
        rw [List.length_append, List.length_cons] at h
        have hq : splitLoop turns q = pieces q := ih (by omega)
        rw [pieces_append_slash, ← hq]
        by_cases hne : c = []
        · rw [hne, List.nil_append, splitLoop_slash]
          exact splitLoop_turns (by omega) (by omega)
        · rw [splitLoop_piece hne hc (Or.inr ⟨q, rfl⟩), splitLoop_slash, pieces_piece hne hc,
            List.singleton_append]
      · by_cases hne : path = []
        · rw [hne]
          rfl
        · have := splitLoop_piece hne hslash (Or.inl rfl) turns
          rw [List.append_nil] at this
          rw [this, pieces_piece hne hslash, ih (Nat.zero_le _)]
          rfl

theorem pieces_spec {path : Str} : ∀ c ∈ pieces path, c ≠ [] ∧ ch '/' ∉ c :=
  splitLoop_eq (Nat.le_refl path.length) ▸ splitLoop_pieces

/-- The pieces are the text without its slashes. -/
theorem flatten_pieces (path : Str) : (pieces path).flatten = path.filter (· != ch '/') := by
  rw [pieces, List.flatten_filter_ne_nil]
  induction path with
  | nil => rfl
  | cons c path ih =>
      obtain ⟨t, r, htr⟩ := List.exists_cons_of_ne_nil (List.splitOn_ne_nil (ch '/') path)
      rw [htr, List.flatten_cons] at ih
      rw [List.splitOn_cons_eq_if_modifyHead]
      by_cases hc : c = ch '/'
      · simp [hc, htr, ih]
      · simp [hc, htr, ih]

/-- What `assign` builds. -/
theorem assign_eq (path : Str) :
    assign path = normalize ⟨path.head? != some (ch '/'), pieces path⟩ := by
  rw [assign, splitLoop_eq (Nat.le_refl _)]

theorem pieces_join {components : List Str} (h : ∀ c ∈ components, c ≠ [] ∧ ch '/' ∉ c) :
    pieces (join components) = components := by
  rw [← splitLoop_eq (Nat.le_refl _)]
  exact splitLoop_join h (length_le_length_join fun c hc => (h c hc).1)

/-! ## Round trips -/

/-- A directory has the same pieces. -/
theorem pieces_directory (s : Str) (asDir : Bool) :
    pieces (s ++ if asDir then [ch '/'] else []) = pieces s := by
  cases asDir with
  | false => exact congrArg pieces (List.append_nil s)
  | true => exact (pieces_append_slash s []).trans (List.append_nil _)

/-- A normal path comes back from its text. -/
theorem assign_getAs {f : FilePath} (h : f.Normal) (asDir : Bool) :
    assign (f.getAs asDir) = f := by
  obtain ⟨relative, components⟩ := f
  by_cases hc : components = []
  · subst hc
    cases relative <;> cases asDir <;> decide
  cases relative with
  | false =>
      rw [getAs_absolute asDir rfl hc, assign_eq, pieces_slash, pieces_directory,
        pieces_join h.piece]
      exact normalize_of_normal h.toNormalComponents
  | true =>
      have hne := fun c hc => (h.piece c hc).1
      rw [getAs_relative asDir rfl hc hne, assign_eq,
        List.head?_append_of_ne_nil _ (join_ne_nil hc hne), pieces_directory, ← assign_eq]
      exact assign_join h rfl

/-- **Printing and reading.** -/
theorem get_roundTrip {f : FilePath} (h : f.Normal) (s : Str) :
    assign f.get = f ∧ assign (f.getAs true) = f ∧ assign (assign s).get = assign s :=
  ⟨assign_getAs h false, assign_getAs h true, assign_getAs (assign_normal s) false⟩

theorem get_roundTrip_sample :
    let f : FilePath := ⟨true, [str "..", str "run", str "my socket"]⟩
    let s := str "//var/./run///"
    assign f.get = f ∧ assign (f.getAs true) = f ∧ assign (assign s).get = assign s :=
  get_roundTrip ⟨⟨by decide, by decide, by decide⟩, by decide +kernel⟩ _

end Undervest.FilePath
