import Undervest.Refresh
import Undervest.Uri
import Undervest.Lib.Enumeration

/-!
# The sendmail loader

The loader reads a local file.  A stream is the list of the lines it still
delivers: `getline` takes the first one.  A stream that could not be opened
delivers none, and neither does one on a directory.

`Entry` is the documented form of a line that counts.  A load of a file collects
the names of the domain among its entries, all of them and nothing else
(`loadData_entries`).

`openSource` refuses a URI when the parser throws, or when its scheme is another
one than `file`.  It does not look at the result of the parser, nor at the state
of the stream.  So a load that fails at nothing else does not fail at a file
that is not there either (`failsSafe_iff`).
-/

namespace Undervest

open Unordered Enumeration

/-! ## Files -/

/-- The lines of a text, as `getline` delivers them. -/
def lines : Str → List Str
  | [] => []
  | c :: content =>
      if c = ch '\n' then [] :: lines content
      else
        match lines content with
        | [] => [[c]]
        | line :: rest => (c :: line) :: rest

/-- What a path leads to. -/
inductive Node where
  | missing
  | unreadable
  | directory
  | file (content : Str)
deriving DecidableEq, Repr

abbrev FileSystem := Str → Node

theorem newline_notMem_lines {content line : Str} (h : line ∈ lines content) :
    ch '\n' ∉ line := by
  induction content generalizing line with
  | nil => cases h
  | cons c content ih =>
      rw [lines] at h
      split at h
      next =>
        rw [List.mem_cons] at h
        cases h with
        | inl hline => simp [hline]
        | inr hrest => exact ih hrest
      next hc =>
        cases hl : lines content with
        | nil =>
            rw [hl] at h
            obtain rfl := List.mem_singleton.mp h
            simpa using Ne.symm hc
        | cons line' rest =>
            rw [hl] at h ih
            rw [List.mem_cons] at h
            cases h with
            | inl hline =>
                have hline' := ih (List.mem_cons_self ..)
                simp [hline, Ne.symm hc, hline']
            | inr hrest => exact ih (List.mem_cons_of_mem _ hrest)

theorem lines_append {line : Str} (h : ch '\n' ∉ line) (content : Str) :
    lines (line ++ ch '\n' :: content) = line :: lines content := by
  induction line with
  | nil => simp [lines]
  | cons c line ih =>
      rw [List.mem_cons, not_or] at h
      rw [List.cons_append, lines, if_neg (Ne.symm h.1), ih h.2]

/-- Every list of lines is the content of a file. -/
theorem lines_flatMap {ls : List Str} (h : ∀ line ∈ ls, ch '\n' ∉ line) :
    lines (ls.flatMap fun line => line ++ [ch '\n']) = ls := by
  induction ls with
  | nil => rfl
  | cons line ls ih =>
      rw [List.forall_mem_cons] at h
      rw [List.flatMap_cons, List.append_assoc, List.singleton_append, lines_append h.1, ih h.2]

namespace Sendmail

/-! ## The loader -/

/-- The constructor of `sm_handle`. -/
def handle (fs : FileSystem) (name : Str) : List Str :=
  match fs name with
  | .file content => lines content
  | _ => []

/-- `openSource`. -/
def openSource (fs : FileSystem) (uri : Str) : Option (List Str) :=
  (URI.parse uri).bind fun u =>
    let s := u.1.path.get
    if s.length = 0 ∨ u.1.scheme ≠ [] ∧ strtolower u.1.scheme ≠ str "file" then none
    else some (handle fs s)

/-- The body of the loop of `getRecipient`. -/
def entry (line : Str) : Option Str :=
  match findFirstOf (str ":# \t\r\n") line with
  | none => none
  | some n => if n ≠ 0 ∧ charAt line n = ch ':' then some (line.take n) else none

/-- `getRecipient`. -/
def getRecipient : List Str → Option Str × List Str
  | [] => (some [], [])
  | line :: h =>
      match entry line with
      | some recipient => (some recipient, h)
      | none => getRecipient h

/-- What the loader does for a source. -/
def delivery (fs : FileSystem) (uri : Str) : Delivery :=
  match openSource fs uri with
  | none => ⟨false, [], true⟩
  | some h => ⟨true, calls getRecipient (h.length + 1) h, true⟩

/-! ## Entries -/

/-- The line starts with a recipient name or an address, followed by a colon. -/
def Entry (line token : Str) : Prop :=
  token ≠ [] ∧ (∀ c ∈ token, c ∉ str ":# \t\r") ∧ ∃ rest, line = token ++ ch ':' :: rest

theorem entry_eq_some {line token : Str} (h : ch '\n' ∉ line) :
    entry line = some token ↔ Entry line token := by
  have hset : ∀ c, (str ":# \t\r\n").contains c = true ↔ c ∈ str ":# \t\r" ∨ c = ch '\n' := by
    intro c
    have hsplit : str ":# \t\r\n" = str ":# \t\r" ++ [ch '\n'] := by decide
    rw [hsplit, List.contains_iff_mem, List.mem_append, List.mem_singleton]
  constructor
  · intro he
    cases hf : findFirstOf (str ":# \t\r\n") line with
    | none => simp [entry, hf] at he
    | some n =>
        obtain ⟨a, c, b, rfl, rfl, hc, ha⟩ := split_of_findIdx? hf
        simp only [entry, hf] at he
        split at he
        next hn =>
            obtain rfl : token = a := by simpa using (Option.some.inj he).symm
            obtain rfl : c = ch ':' := by simpa [charAt] using hn.2
            refine ⟨by simpa using hn.1, fun x hx hm => ?_, b, rfl⟩
            have := (hset x).mpr (Or.inl hm)
            rw [ha x hx] at this
            cases this
        next => cases he
  · rintro ⟨hne, htok, rest, rfl⟩
    have hf : findFirstOf (str ":# \t\r\n") (token ++ ch ':' :: rest) = some token.length := by
      refine findIdx?_append_cons (fun c hc => ?_) (by decide) rest
      rw [Bool.eq_false_iff, ne_eq, hset, not_or]
      refine ⟨htok c hc, ?_⟩
      rintro rfl
      exact h (List.mem_append_left _ hc)
    have hlen : token.length ≠ 0 := by simpa using hne
    simp [entry, hf, charAt, hlen]

theorem entry_ne_nil {line token : Str} (h : entry line = some token) : token ≠ [] := by
  unfold entry at h
  split at h
  next => cases h
  next n hf =>
      split at h
      next hn =>
          obtain rfl := Option.some.inj h
          obtain ⟨a, c, b, rfl, rfl, -, -⟩ := split_of_findIdx? hf
          simpa using hn.1
      next => cases h

/-! ## Reading a file -/

/-- A call takes the lines up to the first entry. -/
theorem getRecipient_eq_scan (h : List Str) :
    getRecipient h = scan (fun line => (entry line).map some) (some []) h := by
  induction h with
  | nil => rfl
  | cons line h ih =>
      rw [getRecipient, scan]
      cases entry line with
      | none => exact ih
      | some recipient => rfl

theorem calls_getRecipient (h : List Str) :
    ∃ k, calls getRecipient (h.length + 1) h =
      (h.filterMap entry).map some ++ List.replicate (k + 1) (some []) := by
  obtain ⟨k, hk⟩ := calls_scan_of_lt (fun line => (entry line).map some) (some [])
    (Nat.lt_succ_self h.length)
  refine ⟨k, ?_⟩
  rw [List.map_filterMap, ← hk]
  congr 1
  exact funext getRecipient_eq_scan

theorem delivery_of_opens {fs : FileSystem} {uri : Str} {h : List Str}
    (ho : openSource fs uri = some h) :
    delivery fs uri = ⟨true, calls getRecipient (h.length + 1) h, true⟩ := by
  rw [delivery, ho]

/-- The loader delivers the entries of the file. -/
theorem addresses_delivery {fs : FileSystem} {uri : Str} {h : List Str}
    (ho : openSource fs uri = some h) : (delivery fs uri).addresses = h.filterMap entry := by
  obtain ⟨k, hk⟩ := calls_getRecipient h
  have hne : ∀ a ∈ h.filterMap entry, decide (a ≠ []) = true := by
    intro a ha
    obtain ⟨line, -, he⟩ := List.mem_filterMap.mp ha
    simpa using entry_ne_nil he
  rw [delivery_of_opens ho, Delivery.addresses, hk]
  simp only [List.map_append, List.map_map, List.replicate_succ]
  change ((h.filterMap entry).map id ++ _).takeWhile _ = _
  rw [List.map_id, List.takeWhile_append_of_pos hne]
  simp

/-- A file is read to its end without an error. -/
theorem not_fails_delivery {fs : FileSystem} {uri : Str} {h : List Str}
    (ho : openSource fs uri = some h) : ¬(delivery fs uri).Fails := by
  obtain ⟨k, hk⟩ := calls_getRecipient h
  rw [delivery_of_opens ho, Delivery.Fails, hk]
  simp only [Bool.true_eq_false, false_or, or_false]
  intro hm
  have hm := (List.takeWhile_prefix _).subset hm
  rw [List.mem_append, List.mem_replicate, List.mem_map] at hm
  simp at hm

theorem stateAfter_getRecipient (h : List Str) :
    stateAfter (· == some []) getRecipient (h.length + 1) h = [] := by
  have hscan : getRecipient = scan (fun line => (entry line).map some) (some []) :=
    funext getRecipient_eq_scan
  rw [hscan, stateAfter_scan (Nat.lt_succ_self _) rfl, List.dropWhile_eq_nil_iff.mpr, List.tail_nil]
  intro line _
  cases he : entry line with
  | none => rfl
  | some recipient => simpa using entry_ne_nil he

/-- **A load adds the names in the entries of the file.**  An entry is a line that
starts with a name or an address of the domain and a colon, whatever the other
lines are, and the file is read to its end. -/
theorem loadData_entries (domname : Str) {fs : FileSystem} {uri content : Str}
    (ho : openSource fs uri = some (lines content)) (r : UnorderedSet Str) :
    (Source.loadData domname (delivery fs uri) r).2 = .returns ∧
      stateAfter (· == some []) getRecipient ((lines content).length + 1) (lines content) = [] ∧
      ∀ s, s ∈ (Source.loadData domname (delivery fs uri) r).1.toList ↔
        s ∈ r.toList ∨ ∃ line ∈ lines content, ∃ token name, Entry line token ∧
          Source.Names strcaseeq domname token name ∧ s = strtolower name := by
  refine ⟨?_, stateAfter_getRecipient _, fun s => ?_⟩
  · cases hc : (Source.loadData domname (delivery fs uri) r).2 with
    | returns => rfl
    | throws => exact absurd ((Source.loadData_throws ..).mp hc) (not_fails_delivery ho)
  · have hopens : (delivery fs uri).opens = true := by rw [delivery_of_opens ho]
    rw [← UnorderedSet.mem_toFinset, Source.loadData_toFinset, if_pos hopens, Finset.mem_union,
      UnorderedSet.mem_toFinset, Delivery.collected, addresses_delivery ho, List.mem_toFinset,
      List.mem_filterMap]
    refine or_congr_right ⟨?_, ?_⟩
    · rintro ⟨token, ht, hs⟩
      obtain ⟨line, hline, he⟩ := List.mem_filterMap.mp ht
      obtain ⟨name, hname, rfl⟩ := Source.accept_eq_some.mp hs
      exact ⟨line, hline, token, name, (entry_eq_some (newline_notMem_lines hline)).mp he, hname,
        rfl⟩
    · rintro ⟨line, hline, token, name, he, hname, rfl⟩
      have he' := (entry_eq_some (newline_notMem_lines hline)).mpr he
      exact ⟨token, List.mem_filterMap.mpr ⟨line, hline, he'⟩,
        Source.accept_eq_some.mpr ⟨name, hname, rfl⟩⟩

/-- A file system that has one text behind every path. -/
def everywhere (content : Str) : FileSystem := fun _ => .file content

theorem openSource_everywhere :
    openSource (everywhere (str "# aliases\nJoe@Example.COM: root\n")) (str "/etc/aliases") =
      some (lines (str "# aliases\nJoe@Example.COM: root\n")) := by
  decide +kernel

theorem loadData_entries_sample :
    str "joe" ∈ (Source.loadData (str "example.com")
      (delivery (everywhere (str "# aliases\nJoe@Example.COM: root\n")) (str "/etc/aliases"))
      .empty).1.toList :=
  ((loadData_entries (str "example.com") openSource_everywhere .empty).2.2 _).mpr
    (Or.inr ⟨str "Joe@Example.COM: root", by decide +kernel, str "Joe@Example.COM", str "Joe",
      ⟨by decide, by decide +kernel, str " root", by decide⟩,
      Or.inr ⟨str "Example.COM", by decide, by decide, by decide +kernel⟩, by decide⟩)

/-- A domain part is compared up to its first NUL only, so a name may be taken from
an address of a longer domain. -/
theorem nul_ends_domain :
    ¬∀ (domname uri content : Str) (fs : FileSystem), openSource fs uri = some (lines content) →
      ∀ s, s ∈ (Source.loadData domname (delivery fs uri) .empty).1.toList ↔
        ∃ line ∈ lines content, ∃ token name, Entry line token ∧
          Source.Names (fun d e => strtolower d == strtolower e) domname token name ∧
          s = strtolower name := by
  intro h
  have hnul := (h (str "com") (str "f") (str "joe@com" ++ [0] ++ str "x:")
    (everywhere (str "joe@com" ++ [0] ++ str "x:")) (by decide +kernel) (str "joe")).mp
    (by decide +kernel)
  obtain ⟨line, hline, token, name, he, hname, -⟩ := hnul
  have hl : lines (str "joe@com" ++ [0] ++ str "x:") = [str "joe@com" ++ [0] ++ str "x:"] := by
    decide
  have he' := (entry_eq_some (newline_notMem_lines hline)).mpr he
  rw [hl, List.mem_singleton] at hline
  have hentry : entry (str "joe@com" ++ [0] ++ str "x:") =
      some (str "joe@com" ++ [0] ++ str "x") := by
    decide
  rw [hline, hentry, Option.some.injEq] at he'
  cases hname with
  | inl hname => exact hname.1 (he' ▸ by decide)
  | inr hname =>
      obtain ⟨dom, haddr, hat, hsame⟩ := hname
      -- the first `@` stands at position 3
      have hf := find_append dom hat
      rw [← haddr, ← he'] at hf
      have hlen : name.length = 3 := by
        have h3 : find (ch '@') (str "joe@com" ++ [0] ++ str "x") = some 3 := by decide
        exact Option.some.inj (hf.symm.trans h3)
      have hdom : dom = token.drop 4 := by
        rw [haddr, List.drop_append, hlen]
        simp [hlen]
      rw [hdom, ← he'] at hsame
      exact absurd hsame (by decide)

/-! ## Errors -/

/-- `openSource` refuses the URI: the parser throws, or the scheme is another one
than `file`. -/
def Refused (uri : Str) : Prop :=
  ∀ u ∈ URI.parse uri, u.1.scheme ≠ [] ∧ strtolower u.1.scheme ≠ str "file"

/-- The whole URI parses and names a file that can be opened for reading. -/
def NamesFile (fs : FileSystem) (uri : Str) : Prop :=
  ∃ u, URI.parse uri = some (u, true) ∧ u.path.components ≠ [] ∧
    ∃ content, fs u.path.get = .file content

theorem openSource_eq_none (fs : FileSystem) (uri : Str) :
    openSource fs uri = none ↔ Refused uri := by
  unfold openSource Refused
  cases URI.parse uri with
  | none => simp
  | some u => simp [FilePath.get_ne_nil]

/-- A load from a source throws when the URI is refused, and in no other case. -/
theorem fails_delivery (fs : FileSystem) (uri : Str) :
    (delivery fs uri).Fails ↔ Refused uri := by
  rw [← openSource_eq_none fs]
  cases ho : openSource fs uri with
  | none =>
      have hopens : (delivery fs uri).opens = false := by rw [delivery, ho]
      exact iff_of_true (Or.inl hopens) rfl
  | some h => exact iff_of_false (not_fails_delivery ho) (by simp)

/-- Unless `good` holds the load of the domain throws.  Then the load does not
reset the failure count, and the object that is refreshed rejects nobody. -/
def FailsSafe (c : Choices) (feed : Feed) (d : Domain) (good : Prop) : Prop :=
  ¬good → (d.loadData c feed).2 = .throws ∧
    (d.failureCount ≠ 0 → (d.loadData c feed).1.failureCount ≠ 0) ∧
    (d.refresh c feed).result = none ∧ (d.refresh c feed).self.failureCount ≠ 0 ∧
    ∀ (c' : Choices) s, (d.refresh c feed).self.recipient c' s = some s

/-- A load that throws is safe. -/
theorem failsSafe_iff_throws {c : Choices} {feed : Feed} {d : Domain} {good : Prop} :
    FailsSafe c feed d good ↔ good ∨ (d.loadData c feed).2 = .throws := by
  constructor
  · intro h
    by_cases hg : good
    · exact Or.inl hg
    · exact Or.inr (h hg).1
  · rintro (hg | ht) hn
    · exact absurd hg hn
    · have hfail := (d.cnt_fail).2.1
      rw [Domain.refresh_of_throws ht, Domain.failureCount_of_throws ht]
      exact ⟨ht, id, rfl, hfail, fun c' s => Domain.recipient_of_failureCount hfail c' s⟩

/-- **When a load fails safe.**  A domain that has a source of this loader rejects
nobody because of a bad URI or a bad file in two cases: the source names a
file that can be read, or the load throws.  It throws when the domain is not
disabled and the URI is refused or another source fails. -/
theorem failsSafe_iff (c : Choices) (fs : FileSystem) (feed : Feed) (d : Domain) {i : Nat}
    {src : Source} (hs : d.sources[i]? = some src) (hf : feed i = delivery fs src.uri) :
    FailsSafe c feed d (NamesFile fs src.uri) ↔
      NamesFile fs src.uri ∨ d.failureCount ≠ -2 ∧
        (Refused src.uri ∨ ∃ k < d.sources.length, k ≠ i ∧ (feed k).Fails) := by
  have hi : i < d.sources.length := (List.getElem?_eq_some_iff.mp hs).1
  rw [failsSafe_iff_throws, Domain.loadData_throws, ← fails_delivery fs, ← hf]
  refine or_congr_right (and_congr_right fun _ => ⟨?_, ?_⟩)
  · rintro ⟨k, hk, hfails⟩
    by_cases hki : k = i
    · exact Or.inl (hki ▸ hfails)
    · exact Or.inr ⟨k, hk, hki, hfails⟩
  · rintro (hfails | ⟨k, hk, -, hfails⟩)
    · exact ⟨i, hi, hfails⟩
    · exact ⟨k, hk, hfails⟩

theorem failsSafe_iff_sample :
    FailsSafe .canonical (fun _ => delivery (everywhere (str "joe: root")) (str "/etc/aliases"))
      (Domain.sample (4 / 5) (1 / 2))
      (NamesFile (everywhere (str "joe: root")) (str "/etc/aliases")) :=
  (failsSafe_iff .canonical (everywhere (str "joe: root"))
    (fun _ => delivery (everywhere (str "joe: root")) (str "/etc/aliases"))
    (Domain.sample (4 / 5) (1 / 2)) (i := 0) rfl rfl).mpr
      (Or.inl ⟨{ URI.clear with path := ⟨false, [str "etc", str "aliases"]⟩ },
        by decide +kernel, by decide, str "joe: root", rfl⟩)

/-- A file system without files. -/
def nowhere : FileSystem := fun _ => .missing

/-- A file that is not there gives an empty list, and the load succeeds. -/
theorem missing_file_loads :
    ¬FailsSafe .canonical (fun _ => delivery nowhere (str "/etc/aliases"))
      (Domain.sample (4 / 5) (1 / 2)) (NamesFile nowhere (str "/etc/aliases")) := by
  intro h
  have hthrows := (h fun hfile => by
    obtain ⟨u, -, -, content, hc⟩ := hfile
    cases hc).1
  revert hthrows
  decide +kernel

end Sendmail

end Undervest
