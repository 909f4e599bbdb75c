import Undervest.FilePathAssign
import Undervest.UriExceptions
import Undervest.UriRoundTrip

/-!
# The socket of the milter

The destructor of a milter removes the file of its socket.  It reads the name of the
socket as a URI and does not ask whether the parser read it to its end.  So a character
at which the parser stops cuts the path short, and behind a scheme a text with an `@` is
taken for a user information (`destroy_unlinks_iff`).

What is cut off has a character other than a slash, so the file that is removed has
fewer of them than the path (`not_same`).
-/

namespace Undervest

open URI hiding clear
open FilePath hiding get clear

namespace Milter

/-! ## The destructor -/

/-- What the destructor calls. -/
inductive Call where
  | stop
  | unlink (file : Str)
deriving DecidableEq, Repr

/-- `milter::~milter`, and nothing when the parser throws in it. -/
def destroy (socket : Str) (running : Bool) : Option (List Call) :=
  (parse socket).map fun u =>
    let t := strtolower u.1.scheme
    (if running then [.stop] else []) ++
      if t.length = 0 ∨ t = str "local" ∨ t = str "unix" then [.unlink (cStr u.1.path.get)] else []

/-! ## The file -/

/-- Two absolute paths without dots lead to the same file. -/
structure SameFile (path file : Str) : Prop where
  root : file.head? = some (ch '/')
  pieces : FilePath.pieces file = FilePath.pieces path

/-- The files that are removed. -/
def unlinked (calls : List Call) : List Str :=
  calls.filterMap fun c =>
    match c with
    | .stop => none
    | .unlink file => some file

/-- At most one file is removed, and none but the file of the path. -/
def OnlyUnlinks (path : Str) (calls : Option (List Call)) : Prop :=
  ∀ l ∈ calls, (unlinked l).length ≤ 1 ∧ ∀ file ∈ unlinked l, SameFile path file

/-- The parser reads a path with this form in front to its end, and as a path. -/
def PathRead (form path : Str) : Prop :=
  validPath path = true ∧ (form ≠ [] → ∀ info rest, validUserinfo info = true →
    path ≠ str "//" ++ (info ++ ch '@' :: rest))

/-- The parser throws at a path with this form in front. -/
def Thrown (form path : Str) : Prop :=
  form ≠ [] ∧ ∃ info rest, validUserinfo info = true ∧ ch ']' ∈ rest ∧
    path = str "//" ++ (info ++ (str "@[" ++ rest))

/-! ## Slashes and other characters -/

theorem SameFile.count {path file : Str} (h : SameFile path file) :
    file.countP (· != ch '/') = path.countP (· != ch '/') := by
  rw [List.countP_eq_length_filter, List.countP_eq_length_filter, ← flatten_pieces,
    ← flatten_pieces, h.pieces]

/-- A path that was cut short is another one. -/
theorem not_same {path t : Str}
    (h : t.countP (· != ch '/') < path.countP (· != ch '/')) :
    ¬ SameFile path (cStr (assign t).get) := by
  intro hsame
  by_cases hf : (assign t).components ≠ [] ∨ (assign t).relative = false
  · have hcstr : (cStr (assign t).get).countP (· != ch '/') ≤
        (assign t).get.countP (· != ch '/') := (List.takeWhile_sublist _).countP_le
    have hget := countP_get hf fun c hc => ((assign_normal t).piece c hc).1
    have hassign := (assign_sublist t).countP_le (p := (· != ch '/'))
    have hcount := hsame.count
    omega
  · -- the path without a component is a dot
    obtain ⟨hc, hrel⟩ := not_or.mp hf
    have hget : (assign t).get = str "." := by
      rw [FilePath.get, getAs, not_not.mp hc, if_neg hrel]
      rfl
    have hroot := hsame.root
    rw [hget] at hroot
    exact absurd hroot (by decide)

/-- The file of a path without dots. -/
theorem same {path : Str} (hroot : path.head? = some (ch '/')) (hpath : Chars pcharSlash path)
    (hdots : ∀ c ∈ pieces path, c ≠ str "." ∧ c ≠ str "..") :
    SameFile path (cStr (assign path).get) := by
  have hnormal : NormalComponents false (pieces path) :=
    ⟨fun h => (hdots _ h).1 rfl, List.pairwise_of_forall_mem_list fun _ _ b hb he =>
      absurd he (hdots b hb).2, fun _ h => (hdots _ h).2 rfl⟩
  have hassign : assign path = ⟨false, pieces path⟩ := by
    rw [assign_eq, hroot]
    exact normalize_of_normal hnormal
  have hnul : cStr (assign path).get = ch '/' :: join (pieces path) := by
    have hchars : Chars pcharSlash (ch '/' :: join (assign path).components) :=
      .char (by decide) (by decide) (chars_join hpath)
    rw [get_absolute (by rw [hassign]), cStr, List.takeWhile_eq_self_iff.mpr]
    · rw [hassign]
    · intro c hc
      rw [bne_iff_ne]
      rintro rfl
      exact hchars.notMem (by decide) (by decide) hc
  rw [hnul]
  exact ⟨rfl, by rw [pieces_slash, pieces_join pieces_spec]⟩

/-! ## Forms -/

/-- The forms of a socket name that stand for a file. -/
def forms : List Str := [[], str "local:", str "unix:"]

/-- A file is removed for a URI without a scheme or with one of these two. -/
theorem onlyUnlinks_some {path socket : Str} {r : URI × Bool} (h : parse socket = some r)
    (hs : r.1.scheme ∈ [[], str "local", str "unix"]) (running : Bool) :
    OnlyUnlinks path (destroy socket running) ↔ SameFile path (cStr r.1.path.get) := by
  have ht : (strtolower r.1.scheme).length = 0 ∨ strtolower r.1.scheme = str "local" ∨
      strtolower r.1.scheme = str "unix" := by
    simp only [List.mem_cons, List.not_mem_nil, or_false] at hs
    rcases hs with hs | hs | hs <;> rw [hs] <;> decide +kernel
  have hcalls : destroy socket running =
      some ((if running then [.stop] else []) ++ [.unlink (cStr r.1.path.get)]) := by
    rw [destroy, h, Option.map_some]
    exact congrArg (fun l => some (_ ++ l)) (if_pos ht)
  have hunlinked : unlinked ((if running then [.stop] else []) ++ [.unlink (cStr r.1.path.get)]) =
      [cStr r.1.path.get] := by cases running <;> rfl
  rw [hcalls, OnlyUnlinks]
  simp [hunlinked]

/-- The path of a URI that a path was read into. -/
theorem same_iff {path : Str} (hroot : path.head? = some (ch '/'))
    (hdots : ∀ c ∈ pieces path, c ≠ str "." ∧ c ≠ str "..") {u : URI} {r : URI × Bool}
    (h : parsePath u path = some r) :
    SameFile path (cStr r.1.path.get) ↔ validPath path = true := by
  obtain ⟨-, -, t, q, hpath, ht, hq, hr⟩ := parsePath_fields h
  have hscan : skipCharSet pcharSlash path = some (t, q) := hpath ▸ skipCharSet_of_stops ht hq
  rw [hr, validPath, checkCharSet, hscan, beq_iff_eq, Option.some.injEq, Prod.mk.injEq]
  cases q with
  | nil =>
      obtain rfl : path = t := by rw [hpath, List.append_nil]
      exact iff_of_true (same hroot ht hdots) ⟨rfl, rfl⟩
  | cons c q =>
      refine iff_of_false (not_same ?_) (fun h => List.cons_ne_nil _ _ h.2)
      have hc : c ≠ ch '/' := by
        rintro rfl
        rcases stops_cons.mp hq with hset | ⟨-, hc, -⟩
        · exact absurd hset (by decide)
        · exact absurd hc (by decide)
      rw [hpath, List.countP_append, List.countP_cons_of_pos (by simpa using hc)]
      omega

/-- What throws at seven bits. -/
theorem not_throws {r : Str} (h : ∀ c ∈ r, c < 128) : ¬ Throws r := by
  have hlarge : ∀ c ∈ r, ¬ 128 ≤ c := fun c hc => UInt8.not_le.mpr (h c hc)
  rintro (hc | hc | ⟨-, hc⟩) <;> exact hlarge _ (by simp) hc

theorem parsePath_ascii {path : Str} (hascii : ∀ c ∈ path, c < 128) (u : URI) :
    ∃ r, parsePath u path = some r := by
  refine Option.ne_none_iff_exists'.mp fun h => ?_
  obtain ⟨t, query, fragment, r, hthrows, rfl⟩ := pathThrows_of_parsePath h
  exact not_throws (fun c hc => hascii c (by simp [throwText, hc])) hthrows.rest

/-- With seven bits, only a closing bracket behind an opening one throws. -/
theorem parse_eq_none_iff {scheme path : Str} (hscheme : IsScheme scheme)
    (hascii : ∀ c ∈ path, c < 128) :
    parse (scheme ++ ch ':' :: path) = none ↔ ∃ info rest, validUserinfo info = true ∧
      ch ']' ∈ rest ∧ path = str "//" ++ (info ++ (str "@[" ++ rest)) := by
  have htext : ∀ s info rest, Front.text (.authority s info []) ++ ch '[' :: rest =
      s ++ ch ':' :: (str "//" ++ (info ++ (str "@[" ++ rest))) := by
    intro s info rest
    simp [Front.text, str]
  have hall : ∀ c ∈ scheme ++ ch ':' :: path, c < 128 := by
    intro c hc
    rcases List.mem_append.mp hc with hc | hc
    · exact hscheme.chars.ascii c hc
    · rcases List.mem_cons.mp hc with rfl | hc
      · decide
      · exact hascii c hc
  constructor
  · intro h
    have hthrows := parse_eq_none.mp h
    generalize hT : scheme ++ ch ':' :: path = T at hthrows hall
    cases hthrows with
    | @bracket s info rest hs hinfo hmem =>
        rw [htext] at hT
        obtain ⟨-, hpath⟩ := append_cons_inj (hscheme.chars.notMem (by decide) (by decide))
          (hs.chars.notMem (by decide) (by decide)) hT
        exact ⟨info, rest, hinfo.checkCharSet, hmem, hpath⟩
    | @port s info host d k c _ _ _ _ _ hc =>
        exact absurd hc (UInt8.not_le.mpr (hall c (by simp)))
    | path _ hpath =>
        exact absurd hpath.rest (not_throws fun c hc => hall c (by simp [throwText, hc]))
  · rintro ⟨info, rest, hinfo, hmem, rfl⟩
    rw [← htext, parse_bracket hscheme (.of_checkCharSet hinfo), if_pos hmem]

section

variable {path : Str} (hroot : path.head? = some (ch '/')) (hascii : ∀ c ∈ path, c < 128)
  (hdots : ∀ c ∈ pieces path, c ≠ str "." ∧ c ≠ str "..") (running : Bool)

include hroot hascii hdots

/-- A path on its own. -/
theorem destroy_bare : OnlyUnlinks path (destroy path running) ↔ validPath path = true := by
  have hbare : ¬ SchemeLike path := by
    rintro ⟨s, rest, hs, he⟩
    obtain ⟨p, hp⟩ := List.head?_eq_some_iff.mp hroot
    exact hs.append_ne (by decide) _ _ (he.symm.trans hp)
  have hparse : parse path = parsePath URI.clear path := parse_lead (l := .front .bare) hbare
  obtain ⟨r, hr⟩ := parsePath_ascii hascii URI.clear
  have hscheme : r.1.scheme = [] := (parsePath_fields hr).1
  exact (onlyUnlinks_some (hparse.trans hr) (by simp [hscheme]) running).trans
    (same_iff hroot hdots hr)

/-- A path behind a scheme. -/
theorem destroy_scheme {scheme : Str} (hs : IsScheme scheme)
    (hmem : scheme ∈ [[], str "local", str "unix"]) :
    OnlyUnlinks path (destroy (scheme ++ ch ':' :: path) running) ↔
      (validPath path = true ∧ ∀ info rest, validUserinfo info = true →
          path ≠ str "//" ++ (info ++ ch '@' :: rest)) ∨
        ∃ info rest, validUserinfo info = true ∧ ch ']' ∈ rest ∧
          path = str "//" ++ (info ++ (str "@[" ++ rest)) := by
  by_cases hat : ∃ info rest, validUserinfo info = true ∧
      path = str "//" ++ (info ++ ch '@' :: rest)
  · obtain ⟨info, rest, hinfo, hpath⟩ := hat
    have hread : ¬ (validPath path = true ∧ ∀ info rest, validUserinfo info = true →
        path ≠ str "//" ++ (info ++ ch '@' :: rest)) := fun h => h.2 info rest hinfo hpath
    rw [or_iff_right hread, ← parse_eq_none_iff hs hascii]
    have hparse : parse (scheme ++ ch ':' :: path) =
        (parseHost scheme info rest).bind parseBehind := by
      rw [hpath, parse_authority hs, parseAuthority_at (.of_checkCharSet hinfo)]
    cases hr : parse (scheme ++ ch ':' :: path) with
    | none => exact iff_of_true (by simp [OnlyUnlinks, destroy, hr]) rfl
    | some r =>
        refine iff_of_false ?_ (Option.some_ne_none r)
        -- the path that is read comes from behind the `@`
        have hshort : ∀ t : Str, t.Sublist rest →
            t.countP (· != ch '/') < path.countP (· != ch '/') := by
          intro t ht
          have hle := ht.countP_le (p := (· != ch '/'))
          rw [hpath, List.countP_append, List.countP_append,
            List.countP_cons_of_pos (by decide)]
          omega
        rcases parseHost_fields (hparse.symm.trans hr) with hclear | ⟨hscheme, -, t, ht, hfile⟩
        · rw [onlyUnlinks_some hr (by simp [hclear, URI.clear]), hclear]
          exact not_same (hshort [] (List.nil_sublist rest))
        · rw [onlyUnlinks_some hr (hscheme ▸ hmem), hfile]
          exact not_same (hshort t ht)
  · have hnone : ∀ info rest, validUserinfo info = true →
        path ≠ str "//" ++ (info ++ ch '@' :: rest) :=
      fun info rest hinfo hpath => hat ⟨info, rest, hinfo, hpath⟩
    have hthrown : ¬ ∃ info rest, validUserinfo info = true ∧ ch ']' ∈ rest ∧
        path = str "//" ++ (info ++ (str "@[" ++ rest)) := by
      rintro ⟨info, rest, hinfo, -, hpath⟩
      exact hat ⟨info, _, hinfo, hpath⟩
    rw [or_iff_left hthrown, and_iff_left hnone]
    have hbefore : Lead.Before (.front (.scheme scheme)) path :=
      ⟨hs, fun info rest hinfo => hnone info rest hinfo.checkCharSet⟩
    have htext : Lead.text (.front (.scheme scheme)) ++ path = scheme ++ ch ':' :: path := by
      simp [Lead.text, Front.text, str]
    have hparse := parse_lead hbefore
    rw [htext] at hparse
    obtain ⟨r, hr⟩ := parsePath_ascii hascii (Lead.uri (.front (.scheme scheme)))
    have hscheme : r.1.scheme = scheme := (parsePath_fields hr).1
    exact (onlyUnlinks_some (hparse.trans hr) (hscheme ▸ hmem) running).trans
      (same_iff hroot hdots hr)

theorem destroy_form {scheme : Str} (hs : IsScheme scheme)
    (hmem : scheme ∈ [[], str "local", str "unix"]) :
    OnlyUnlinks path (destroy (scheme ++ str ":" ++ path) running) ↔
      PathRead (scheme ++ str ":") path ∨ Thrown (scheme ++ str ":") path := by
  have hne : scheme ++ str ":" ≠ [] := List.append_ne_nil_of_left_ne_nil hs.ne_nil _
  have htext : scheme ++ str ":" ++ path = scheme ++ ch ':' :: path := by simp [str]
  rw [htext, destroy_scheme hroot hascii hdots running hs hmem, PathRead, Thrown]
  simp only [hne, ne_eq, not_false_eq_true, true_and, forall_const]

/-- **What destroying a milter removes.** -/
theorem destroy_unlinks_iff {form : Str} (hform : form ∈ forms) :
    OnlyUnlinks path (destroy (form ++ path) running) ↔ PathRead form path ∨ Thrown form path := by
  rw [forms, List.mem_cons, List.mem_cons, List.mem_singleton] at hform
  rcases hform with rfl | rfl | rfl
  · rw [List.nil_append, destroy_bare hroot hascii hdots]
    simp [PathRead, Thrown]
  · have hs : IsScheme (str "local") := ⟨by decide, .of_checkCharSet (by decide +kernel)⟩
    have htext : str "local:" = str "local" ++ str ":" := by decide
    rw [htext]
    exact destroy_form hroot hascii hdots running hs (by simp)
  · have hs : IsScheme (str "unix") := ⟨by decide, .of_checkCharSet (by decide +kernel)⟩
    have htext : str "unix:" = str "unix" ++ str ":" := by decide
    rw [htext]
    exact destroy_form hroot hascii hdots running hs (by simp)

end

theorem destroy_unlinks_sample :
    OnlyUnlinks (str "/run//milter.sock/")
        (destroy (str "unix:" ++ str "/run//milter.sock/") true) ↔
      PathRead (str "unix:") (str "/run//milter.sock/") ∨
        Thrown (str "unix:") (str "/run//milter.sock/") :=
  destroy_unlinks_iff (by decide) (ascii_of_all (by decide +kernel)) (by decide +kernel) true
    (by decide)

/-- A blank in the path, and the file of another path is removed. -/
theorem blank_unlinks_other :
    ¬ OnlyUnlinks (str "/var/run/my socket") (destroy (str "/var/run/my socket") false) := by
  have hcalls : destroy (str "/var/run/my socket") false = some [.unlink (str "/var/run/my")] := by
    decide +kernel
  intro h
  have hsame := (h _ hcalls).2 (str "/var/run/my") (by decide)
  exact absurd hsame.pieces (by decide +kernel)

end Milter

end Undervest
