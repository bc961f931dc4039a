import Reckon.Proofs.Token.Cut
import Reckon.Proofs.Token.Expansion
import Reckon.Proofs.Token.Spelling

/-!
The part of a text that was read.

While a text is read, abbreviations ahead are replaced, and what stands behind the last token changes
with them. A text that was passed is one that is read off the front token by token, with nothing
expanded, as long as what follows it starts as it did or is a seam. An expansion puts a parenthesis
where a backslash stood, and both are seams; the end of the text is one too. So what was passed may be
read again on its own.

    front          rest
    (a) / ( │ \sqrt{b}) + c        passed: ( a ) / (
    (a) / ( │ (b) sqrt (2) ) + c   passed: ( a ) / (
    (a) / ( │                      passed: ( a ) / (
-/

namespace Reckon

/-- `front` stands before `rest` and is read as the tokens, with nothing expanded, at any limit. -/
inductive Passes : List Char → List Token → List Char → Prop
  | blanks {u rest : List Char} : (∀ c ∈ u, Text.isBlank c) → Passes u [] rest
  | token {u written front rest : List Char} {token : Token} {ts : List Token} :
      (∀ c ∈ u, Text.isBlank c) →
      (∀ limit, Front.ofText limit (written ++ (front ++ rest)) =
        .lexeme token written (front ++ rest)) →
      Passes front ts rest → Passes (u ++ (written ++ front)) (token :: ts) rest

namespace Passes

variable {front front' rest u y : List Char} {ts us : List Token}

theorem blanks_append (hu : ∀ c ∈ u, Text.isBlank c) (h : Passes front ts rest) :
    Passes (u ++ front) ts rest := by
  cases h with
  | blanks hv => exact .blanks (List.forall_mem_append.2 ⟨hu, hv⟩)
  | token hv hfront hpass =>
    rw [← List.append_assoc]
    exact .token (List.forall_mem_append.2 ⟨hu, hv⟩) hfront hpass

theorem append (h : Passes front ts (front' ++ rest)) (h' : Passes front' us rest) :
    Passes (front ++ front') (ts ++ us) rest := by
  generalize hmid : front' ++ rest = mid at h
  induction h with
  | blanks hu => exact blanks_append hu h'
  | token hu hfront _ ih =>
    subst hmid
    have hpass := ih rfl
    rw [List.append_assoc, List.append_assoc]
    refine .token hu (fun limit => ?_) hpass
    rw [List.append_assoc]
    exact hfront limit

theorem cut {ds : List Char} (h : Passes front ts (ds ++ y)) : Passes front ts ds := by
  generalize hrest : ds ++ y = rest at h
  induction h with
  | blanks hu => exact .blanks hu
  | @token u written front _ token ts hu hfront _ ih =>
    subst hrest
    refine .token hu (fun limit => ?_) (ih rfl)
    have hread : Front.ofText limit (written ++ (front ++ ds) ++ y) =
        .lexeme token written (front ++ ds ++ y) := by
      simpa only [List.append_assoc] using hfront limit
    exact Front.lexeme_cut hread

theorem seam (hseam : Seam y) (h : Passes front ts rest) : Passes front ts y := by
  have hend : Passes front ts [] := cut (y := rest) h
  clear h
  generalize hnil : ([] : List Char) = last at hend
  induction hend with
  | blanks hu => exact .blanks hu
  | @token u written front last token ts hu hfront _ ih =>
    subst hnil
    refine .token hu (fun limit => ?_) (ih rfl)
    have hread := Front.lexeme_append_seam hseam (hfront limit)
    rwa [List.append_nil, List.append_assoc] at hread

theorem of_front {limit : Int} {cs written : List Char} {token : Token}
    (h : Front.ofText limit cs = .lexeme token written rest) : Passes written [token] rest := by
  obtain ⟨rfl, _⟩ := Front.lexeme_append h
  have hread (limit' : Int) : Front.ofText limit' (written ++ rest) = .lexeme token written rest := by
    have hend : Front.ofText limit (written ++ rest ++ []) = .lexeme token written (rest ++ []) := by
      rwa [List.append_nil, List.append_nil]
    exact Front.lexeme_cut hend
  have hpass : Passes ([] ++ (written ++ [])) [token] rest :=
    .token nofun hread (.blanks nofun)
  rwa [List.append_nil] at hpass

/-- What was passed is read on its own. -/
theorem reads {limit : Int} (h : Passes front ts []) : Reads limit front ts := by
  generalize hnil : ([] : List Char) = last at h
  induction h with
  | @blanks u _ hu =>
    have hskip : Text.skipBlanks (u ++ []) = Text.skipBlanks [] := Text.skipBlanks_append hu
    rw [List.append_nil] at hskip
    exact .done hskip
  | token hu hfront _ ih =>
    subst hnil
    have hread := hfront limit
    rw [List.append_nil] at hread
    exact Reads.blanks hu (Reads.of_front hread (ih rfl))

end Passes

/-! ### Reading what was passed -/

namespace Cursor

variable {limit : Int} {u cs written rest : List Char}

theorem skipBlanks_append (hu : ∀ c ∈ u, Text.isBlank c) (hcs : Text.skipBlanks cs = cs)
    (behind : List Char) : skipBlanks ⟨behind, u ++ cs⟩ = ⟨u.reverse ++ behind, cs⟩ := by
  have htake : cs.takeWhile Text.isBlank = [] := by
    have happ := List.takeWhile_append_dropWhile (p := Text.isBlank) (l := cs)
    rw [Text.skipBlanks] at hcs
    rw [hcs] at happ
    exact List.append_cancel_right (happ.trans (List.nil_append cs).symm)
  simp only [skipBlanks, pass, Text.skipBlanks_append hu, hcs, List.takeWhile_append_of_pos hu,
    htake, List.append_nil]

theorem fetch_token {token : Token} (hu : ∀ c ∈ u, Text.isBlank c)
    (h : Front.ofText limit cs = .lexeme token written rest) (behind : List Char) :
    fetch limit ⟨behind, u ++ cs⟩ = .token token ⟨written.reverse ++ (u.reverse ++ behind), rest⟩ := by
  have hskip := skipBlanks_append hu (Front.skipBlanks_of_lexeme h) behind
  have hne : (skipBlanks ⟨behind, u ++ cs⟩).ahead ≠ [] := by
    rw [hskip]
    exact Lexing.ne_nil_of_lexeme h
  rw [Lexing.fetch_eq hne, hskip]
  dsimp only
  rw [h]
  rfl

theorem fetch_blanks (hu : ∀ c ∈ u, Text.isBlank c) (behind : List Char) :
    fetch limit ⟨behind, u⟩ = .done ⟨u.reverse ++ behind, []⟩ := by
  have hskip := skipBlanks_append hu Text.skipBlanks_nil behind
  rw [List.append_nil] at hskip
  rw [fetch, if_pos (by rw [hskip]), hskip]

end Cursor

namespace Passes

variable {front rest : List Char} {ts : List Token}

/-- Nothing is expanded while it is read. -/
theorem buffer_fetches {limit : Int} (h : Passes front ts []) (behind : List Char) :
    ∀ f ∈ Cursor.fetches limit ⟨behind, front⟩, f.after.buffer = behind.reverse ++ front := by
  generalize hnil : ([] : List Char) = last at h
  induction h generalizing behind with
  | blanks hu =>
    intro f hf
    rw [Lexing.fetches_eq, Cursor.fetch_blanks hu, List.mem_singleton] at hf
    subst hf
    simp [Cursor.Fetch.after, Cursor.buffer]
  | @token u written front _ token ts hu hfront _ ih =>
    subst hnil
    intro f hf
    have hread := hfront limit
    rw [List.append_nil] at hread
    rw [Lexing.fetches_eq, Cursor.fetch_token hu hread] at hf
    rcases List.mem_cons.1 hf with rfl | hf
    · simp [Cursor.Fetch.after, Cursor.buffer]
    · rw [ih _ rfl f hf]
      simp

end Passes

/-! ### No abbreviation in what was passed -/

/-- A text in which every backslash stands before a letter that begins no abbreviation. -/
def Unabbreviated (cs : List Char) : Prop :=
  ∀ front rest, cs = front ++ '\\' :: rest → ∃ c ∈ rest.head?, c ∈ ['t', 'c', 'l', 'r']

namespace Unabbreviated

variable {cs ds : List Char}

theorem of_not_mem (h : '\\' ∉ cs) : Unabbreviated cs := by
  rintro front rest rfl
  exact absurd (List.mem_append_right _ (List.mem_cons_self ..)) h

theorem append (h : Unabbreviated cs) (h' : Unabbreviated ds) : Unabbreviated (cs ++ ds) := by
  intro front rest heq
  rcases List.append_eq_append_iff.1 heq with ⟨more, rfl, hds⟩ | ⟨more, hcs, hrest⟩
  · exact h' more rest hds
  · cases more with
    | nil => exact h' [] rest hrest.symm
    | cons c more =>
      obtain ⟨rfl, rfl⟩ := List.cons.inj hrest
      obtain ⟨d, hd, hmem⟩ := h front more hcs
      obtain ⟨more', rfl⟩ := List.head?_eq_some_iff.1 hd
      exact ⟨d, rfl, hmem⟩

/-- No abbreviation is written anywhere in the text. -/
theorem not_infix (h : Unabbreviated cs) :
    ∀ s ∈ ["\\frac", "\\sqrt"], ¬ s.toList <:+: cs := by
  rintro s hs ⟨front, rest, heq⟩
  rw [List.append_assoc] at heq
  simp only [List.mem_cons, List.not_mem_nil, or_false] at hs
  rcases hs with rfl | rfl
  · obtain ⟨c, hc, hmem⟩ := h front ("frac".toList ++ rest) heq.symm
    obtain rfl : 'f' = c := by simpa using hc
    exact absurd hmem (by decide)
  · obtain ⟨c, hc, hmem⟩ := h front ("sqrt".toList ++ rest) heq.symm
    obtain rfl : 's' = c := by simpa using hc
    exact absurd hmem (by decide)

end Unabbreviated

theorem Token.spellings_backslash : ∀ a ∈ spellings, '\\' ∉ a.1.toList.tail ∧
    ('\\' ∈ a.1.toList → a.1.toList.tail.head?.any (· ∈ ['t', 'c', 'l', 'r'])) := by
  decide +kernel

theorem Token.unabbreviated_spelling {s : String} {token : Token} (h : (s, token) ∈ spellings) :
    Unabbreviated s.toList := by
  obtain ⟨htail, hletter⟩ := spellings_backslash _ h
  intro front rest heq
  dsimp only at htail hletter
  rw [heq] at htail hletter
  cases front with
  | nil =>
    have hany := hletter (List.mem_cons_self ..)
    simpa [Option.any_eq_true] using hany
  | cons c front => exact absurd (List.mem_append_right front (List.mem_cons_self ..)) htail

theorem Front.unabbreviated {limit : Int} {cs written rest : List Char} {token : Token}
    (h : ofText limit cs = .lexeme token written rest) : Unabbreviated written := by
  rcases written_cases h with ⟨s, hmem, rfl⟩ | hchars
  · exact Token.unabbreviated_spelling hmem
  · exact .of_not_mem fun hmem => absurd (hchars _ hmem) (by decide)

theorem Passes.unabbreviated {front rest : List Char} {ts : List Token} (h : Passes front ts rest) :
    Unabbreviated front := by
  have hblank {u : List Char} (hu : ∀ c ∈ u, Text.isBlank c) : Unabbreviated u :=
    .of_not_mem fun hmem => absurd (hu _ hmem) (by decide)
  induction h with
  | blanks hu => exact hblank hu
  | token hu hfront _ ih =>
    exact (hblank hu).append ((Front.unabbreviated (hfront 0)).append ih)

end Reckon
