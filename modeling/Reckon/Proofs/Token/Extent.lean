import Reckon.Proofs.Token.Balance
import Reckon.Token.Cursor

/-!
How far a group extends.

From the index of an opening delimiter on, the level of a text is followed through one character after
another. It is one behind that delimiter, and moves by one at a time, so it is positive up to the first
index where it is zero again. The scan stops there, or at the first index before where the level
exceeds the limit; a text that ends before either of them holds no group.

    index    0  1  2  3  4  5  6  7  8
    text     x  {  a  {  b  }  c  }  }
    level       1  1  2  2  1  1  0           limit 2   found, the end is behind index 7
                                              limit 1   too deep at index 3
-/

namespace Reckon

theorem Cursor.positionOf_drop {c : Cursor} {i : Nat} (hposition : c.position ≤ i)
    (hlength : i ≤ c.buffer.length) : c.positionOf (c.buffer.drop i) = i := by
  have hbuffer : c.buffer.length = c.position + c.ahead.length := by
    simp [buffer, position]
  rw [positionOf, List.length_drop]
  omega

namespace Group

variable {opening closing : Char} {limit : Int} {buffer : List Char} {start : Nat}

/-- The level of a text from `start` on, behind the character at an index. -/
def levelAt (opening closing : Char) (buffer : List Char) (start i : Nat) : Int :=
  level opening closing (buffer.extract start (i + 1))

/-- The first index of a text, from `start` on, at which something holds of the level. -/
structure FirstAt (opening closing : Char) (buffer : List Char) (start : Nat) (p : Int → Prop)
    (i : Nat) : Prop where
  start_le : start ≤ i
  lt_length : i < buffer.length
  holds : p (levelAt opening closing buffer start i)
  first : ∀ j < i, start ≤ j → ¬ p (levelAt opening closing buffer start j)

theorem FirstAt.le {p : Int → Prop} {i j : Nat} (hfirst : FirstAt opening closing buffer start p i)
    (hstart : start ≤ j) (hj : p (levelAt opening closing buffer start j)) : i ≤ j := by
  by_contra hlt
  exact hfirst.first j (Nat.not_le.1 hlt) hstart hj

/-- The group that begins at `start` is open, and nests no deeper than the limit, at every index
before `i`. -/
def OpenTo (opening closing : Char) (limit : Int) (buffer : List Char) (start i : Nat) : Prop :=
  ∀ j < i, start ≤ j →
    0 < levelAt opening closing buffer start j ∧ levelAt opening closing buffer start j ≤ limit

/-- A balanced text between its two delimiters. -/
def IsGroup (opening closing : Char) (cs : List Char) : Prop :=
  ∃ content, cs = opening :: content ++ [closing] ∧ Balanced opening closing content

theorem Balanced.eq_of_isGroup (hne : opening ≠ closing) {content front : List Char}
    (hcontent : Balanced opening closing content)
    (hfront : front <+: opening :: content ++ [closing]) (hgroup : IsGroup opening closing front) :
    front = opening :: content ++ [closing] := by
  obtain ⟨inside, rfl, hinside⟩ := hgroup
  obtain ⟨more, hmore⟩ := hfront
  have htail : inside ++ closing :: more = content ++ closing :: [] := by
    simpa using hmore
  rw [(hinside.unique hne hcontent htail).1]

/-! ### The level at an index -/

theorem levelAt_add (hne : opening ≠ closing) {cs : List Char}
    (hdrop : buffer.drop start = opening :: cs) (k : Nat) :
    levelAt opening closing buffer start (start + k) = 1 + level opening closing (cs.take k) := by
  have hlength : start + k + 1 - start = k + 1 := by omega
  rw [levelAt, List.extract, hdrop, hlength, List.take_succ_cons, level_cons, level_opening hne]

theorem levelAt_split (hne : opening ≠ closing) {front rest : List Char} {c : Char}
    (hdrop : buffer.drop start = opening :: (front ++ c :: rest)) :
    levelAt opening closing buffer start (start + (front.length + 1)) =
      1 + level opening closing front + level opening closing [c] := by
  rw [levelAt_add hne hdrop, List.take_length_add_append, List.take_succ_cons, List.take_zero,
    level_append, Int.add_assoc]

theorem place_of_split {front rest : List Char} {c : Char}
    (hdrop : buffer.drop (start + 1) = front ++ c :: rest) :
    start + (front.length + 1) < buffer.length ∧
      buffer.drop (start + (front.length + 1)) = c :: rest ∧
      buffer.extract (start + 1) (start + (front.length + 1)) = front := by
  have hindex : start + (front.length + 1) = start + 1 + front.length := by omega
  have hlength := congrArg List.length hdrop
  rw [List.length_drop, List.length_append, List.length_cons] at hlength
  rw [hindex, List.extract, ← List.drop_drop, hdrop, List.drop_left, Nat.add_sub_cancel_left,
    List.take_left]
  exact ⟨by omega, rfl, rfl⟩

/-! ### Where the scan stops -/

namespace OpenTo

variable {i : Nat}

/-- A group is open through a text that stays within it. -/
theorem of_within (hne : opening ≠ closing) {front rest : List Char}
    (hfront : Within opening closing limit 0 front)
    (hdrop : buffer.drop start = opening :: (front ++ rest)) :
    OpenTo opening closing limit buffer start (start + (front.length + 1)) := by
  intro j hj hstart
  obtain ⟨k, rfl⟩ := Nat.exists_eq_add_of_le hstart
  have hk : k ≤ front.length := by omega
  have hlevel := hfront (front.take k) (List.take_prefix k front)
  rw [levelAt_add hne hdrop, List.take_append_of_le_length hk]
  omega

theorem le_of_leaves (hopen : OpenTo opening closing limit buffer start i) {j : Nat}
    (hstart : start ≤ j)
    (hleaves : levelAt opening closing buffer start j ≤ 0 ∨
      limit < levelAt opening closing buffer start j) : i ≤ j := by
  by_contra hlt
  have hlevel := hopen j (Nat.not_le.1 hlt) hstart
  omega

end OpenTo

/-- The scan goes on to the end of the text, to the first index that exceeds the limit, or to the first
one that closes the group. -/
theorem scan_cases (hne : opening ≠ closing) (hopening : buffer[start]? = some opening) :
    (OpenTo opening closing limit buffer start buffer.length ∧
      scan opening closing limit (buffer.drop start) = .absent) ∨
    (∃ i, start ≤ i ∧ i < buffer.length ∧ OpenTo opening closing limit buffer start i ∧
      0 < levelAt opening closing buffer start i ∧
      limit < levelAt opening closing buffer start i ∧
      scan opening closing limit (buffer.drop start) = .tooDeep (buffer.drop i)) ∨
    ∃ i, start < i ∧ i < buffer.length ∧ OpenTo opening closing limit buffer start i ∧
      levelAt opening closing buffer start i = 0 ∧
      scan opening closing limit (buffer.drop start) =
        .found (buffer.extract (start + 1) i, buffer.drop (i + 1)) := by
  obtain ⟨hstart, hget⟩ := List.getElem?_eq_some_iff.1 hopening
  have hdrop := List.drop_eq_getElem_cons hstart
  rw [hget] at hdrop
  by_cases hlimit : limit < 1
  · -- the first delimiter is one too many
    have hlevel : levelAt opening closing buffer start start = 1 := levelAt_add hne hdrop 0
    refine .inr (.inl ⟨start, Nat.le_refl start, hstart, fun j hj hle => ?_, ?_, ?_, ?_⟩)
    · exact absurd hj (Nat.not_lt.2 hle)
    · omega
    · omega
    · rw [hdrop, scan, if_pos rfl, if_pos hlimit]
  have hscan : scan opening closing limit (buffer.drop start) =
      close opening closing limit 0 (buffer.drop (start + 1)) := by
    rw [hdrop, scan, if_pos rfl, if_neg hlimit]
  have hinner : ((0 : Nat) : Int) < limit := by omega
  rw [hscan]
  rcases close_cases hne hinner (buffer.drop (start + 1)) with ⟨hwithin, hclose⟩ |
    ⟨front, rest, hcs, hwithin, hdeep, hclose⟩ | ⟨content, rest, hcs, hinside, hclose⟩
  · -- the text ends inside the group
    refine .inl ⟨?_, hclose⟩
    rw [← List.append_nil (buffer.drop (start + 1))] at hdrop
    have hopen := OpenTo.of_within hne hwithin hdrop
    rw [List.length_drop] at hopen
    exact fun j hj => hopen j (by omega)
  · -- one more group is opened at the level of the limit
    obtain ⟨hlength, hsite, _⟩ := place_of_split hcs
    rw [hcs] at hdrop
    have hlevel := levelAt_split hne hdrop
    rw [level_opening hne] at hlevel
    refine .inr (.inl ⟨_, Nat.le_add_right .., hlength, .of_within hne hwithin hdrop, ?_, ?_, ?_⟩)
    · omega
    · omega
    · rw [hclose, hsite]
  · -- the content is balanced, so its end closes the group
    obtain ⟨hlength, hsite, hcontent⟩ := place_of_split hcs
    obtain ⟨hwithin, hzero⟩ := inside_iff.1 hinside
    rw [hcs] at hdrop
    have hlevel := levelAt_split hne hdrop
    rw [level_closing hne] at hlevel
    refine .inr (.inr ⟨_, by omega, hlength, .of_within hne hwithin hdrop, by omega, ?_⟩)
    rw [hclose, hcontent, ← List.drop_drop, hsite, List.drop_succ_cons, List.drop_zero]

/-- The scan fails at the first index that exceeds the limit, if the level is not zero before. -/
theorem scan_eq_tooDeep_iff (hne : opening ≠ closing) (hopening : buffer[start]? = some opening)
    {site : List Char} :
    scan opening closing limit (buffer.drop start) = .tooDeep site ↔
      ∃ i, site = buffer.drop i ∧ FirstAt opening closing buffer start (limit < ·) i ∧
        ∀ j < i, start ≤ j → levelAt opening closing buffer start j ≠ 0 := by
  rcases @scan_cases _ _ limit _ _ hne hopening with ⟨hopen, hscan⟩ |
    ⟨i, hstart, hlength, hopen, hpos, hover, hscan⟩ | ⟨i, hstart, hlength, hopen, hzero, hscan⟩ <;>
    rw [hscan]
  · refine ⟨nofun, ?_⟩
    rintro ⟨k, _, hfirst, _⟩
    have hle := hopen.le_of_leaves hfirst.start_le (.inr hfirst.holds)
    exact absurd hfirst.lt_length (Nat.not_lt.2 hle)
  · constructor
    · rintro ⟨⟩
      refine ⟨i, rfl, ⟨hstart, hlength, hover, fun j hj hle => ?_⟩, fun j hj hle => ?_⟩
      · exact Int.not_lt.2 (hopen j hj hle).2
      · exact (Int.ne_of_lt (hopen j hj hle).1).symm
    · rintro ⟨k, rfl, hfirst, _⟩
      have hle := hopen.le_of_leaves hfirst.start_le (.inr hfirst.holds)
      rw [Nat.le_antisymm hle (hfirst.le hstart hover)]
  · refine ⟨nofun, ?_⟩
    rintro ⟨k, _, hfirst, hnonzero⟩
    have hle := hopen.le_of_leaves hfirst.start_le (.inr hfirst.holds)
    rcases Nat.eq_or_lt_of_le hle with rfl | hlt
    · -- a group was open before, so the limit is positive, and zero does not exceed it
      have hlevel := hopen start hstart (Nat.le_refl start)
      have hover := hfirst.holds
      omega
    · exact absurd hzero (hnonzero i hlt (Nat.le_of_lt hstart))

/-- The scan finds the group up to the first index at which the level is zero, if the limit is not
exceeded before. -/
theorem scan_eq_found_at_iff (hne : opening ≠ closing) (hopening : buffer[start]? = some opening)
    {content rest : List Char} :
    scan opening closing limit (buffer.drop start) = .found (content, rest) ↔
      ∃ i, content = buffer.extract (start + 1) i ∧ rest = buffer.drop (i + 1) ∧
        FirstAt opening closing buffer start (· = 0) i ∧
        ∀ j < i, start ≤ j → levelAt opening closing buffer start j ≤ limit := by
  rcases @scan_cases _ _ limit _ _ hne hopening with ⟨hopen, hscan⟩ |
    ⟨i, hstart, hlength, hopen, hpos, hover, hscan⟩ | ⟨i, hstart, hlength, hopen, hzero, hscan⟩ <;>
    rw [hscan]
  · refine ⟨nofun, ?_⟩
    rintro ⟨k, _, _, hfirst, _⟩
    have hle := hopen.le_of_leaves hfirst.start_le (.inl (Int.le_of_eq hfirst.holds))
    exact absurd hfirst.lt_length (Nat.not_lt.2 hle)
  · refine ⟨nofun, ?_⟩
    rintro ⟨k, _, _, hfirst, hbound⟩
    have hle := hopen.le_of_leaves hfirst.start_le (.inl (Int.le_of_eq hfirst.holds))
    rcases Nat.eq_or_lt_of_le hle with rfl | hlt
    · have hzero := hfirst.holds
      omega
    · exact absurd hover (Int.not_lt.2 (hbound i hlt hstart))
  · constructor
    · rintro ⟨⟩
      refine ⟨i, rfl, rfl, ⟨Nat.le_of_lt hstart, hlength, hzero, fun j hj hle => ?_⟩,
        fun j hj hle => (hopen j hj hle).2⟩
      exact (Int.ne_of_lt (hopen j hj hle).1).symm
    · rintro ⟨k, rfl, rfl, hfirst, _⟩
      have hle := hopen.le_of_leaves hfirst.start_le (.inl (Int.le_of_eq hfirst.holds))
      rw [Nat.le_antisymm hle (hfirst.le (Nat.le_of_lt hstart) hzero)]

/-- The scan finds nothing exactly if the level is neither zero nor above the limit to the end of the
text. -/
theorem scan_eq_absent_iff (hne : opening ≠ closing) (hopening : buffer[start]? = some opening) :
    scan opening closing limit (buffer.drop start) = .absent ↔
      ∀ i < buffer.length, start ≤ i → levelAt opening closing buffer start i ≠ 0 ∧
        levelAt opening closing buffer start i ≤ limit := by
  rcases @scan_cases _ _ limit _ _ hne hopening with ⟨hopen, hscan⟩ |
    ⟨i, hstart, hlength, hopen, hpos, hover, hscan⟩ | ⟨i, hstart, hlength, hopen, hzero, hscan⟩ <;>
    rw [hscan]
  · refine ⟨fun _ i hi hle => ?_, fun _ => rfl⟩
    obtain ⟨hpos, hbound⟩ := hopen i hi hle
    exact ⟨(Int.ne_of_lt hpos).symm, hbound⟩
  · refine ⟨nofun, fun hall => ?_⟩
    exact absurd hover (Int.not_lt.2 (hall i hlength hstart).2)
  · refine ⟨nofun, fun hall => ?_⟩
    exact absurd hzero (hall i hlength (Nat.le_of_lt hstart)).1

/-- Nothing is found where no group begins. -/
theorem scan_eq_absent_of_ne (hopening : buffer[start]? ≠ some opening) :
    scan opening closing limit (buffer.drop start) = .absent := by
  rw [← List.head?_drop] at hopening
  cases hdrop : buffer.drop start with
  | nil => rfl
  | cons c cs =>
    rw [hdrop, List.head?_cons] at hopening
    rw [scan, if_neg fun hc => hopening (congrArg some hc)]

/-- The error that is reported from a place at or before the group names the first index that exceeds
the limit, and shows the text from there on. -/
theorem tooDeep_of_scan (hne : opening ≠ closing) {site : List Char}
    (hsite : scan opening closing limit (buffer.drop start) = .tooDeep site) {c : Cursor}
    (hbuffer : c.buffer = buffer) (hposition : c.position ≤ start) :
    ∃ i, FirstAt opening closing buffer start (limit < ·) i ∧
      LexicalError.tooDeep limit (c.positionOf site) (Cursor.context site) =
        .tooDeep limit i (String.ofList (buffer.extract i (i + 20))) := by
  have hopening : buffer[start]? = some opening := by
    by_contra hopening
    rw [scan_eq_absent_of_ne hopening] at hsite
    cases hsite
  obtain ⟨i, rfl, hfirst, _⟩ := (scan_eq_tooDeep_iff hne hopening).1 hsite
  have hplace : c.positionOf (buffer.drop i) = i := by
    subst hbuffer
    exact Cursor.positionOf_drop (Nat.le_trans hposition hfirst.start_le)
      (Nat.le_of_lt hfirst.lt_length)
  refine ⟨i, hfirst, ?_⟩
  rw [hplace, Cursor.context, List.extract, Nat.add_sub_cancel_left]

/-- What the scan for a group comes to, at any index of any text, under any limit. It finds nothing
where no group begins, or where the text ends first; it fails at the first index that exceeds the
limit; and it finds the group that ends at the first index where the level is zero. -/
theorem scan_extent (hne : opening ≠ closing) (limit : Int) (buffer : List Char) (start : Nat) :
    (buffer[start]? ≠ some opening →
      scan opening closing limit (buffer.drop start) = .absent) ∧
    (buffer[start]? = some opening →
      (∀ site, scan opening closing limit (buffer.drop start) = .tooDeep site ↔
        ∃ i, site = buffer.drop i ∧ FirstAt opening closing buffer start (limit < ·) i ∧
          ∀ j < i, start ≤ j → levelAt opening closing buffer start j ≠ 0) ∧
      (∀ content rest, scan opening closing limit (buffer.drop start) = .found (content, rest) ↔
        ∃ i, content = buffer.extract (start + 1) i ∧ rest = buffer.drop (i + 1) ∧
          FirstAt opening closing buffer start (· = 0) i ∧
          ∀ j < i, start ≤ j → levelAt opening closing buffer start j ≤ limit) ∧
      (scan opening closing limit (buffer.drop start) = .absent ↔
        ∀ i < buffer.length, start ≤ i → levelAt opening closing buffer start i ≠ 0 ∧
          levelAt opening closing buffer start i ≤ limit)) ∧
    (∀ site, scan opening closing limit (buffer.drop start) = .tooDeep site →
      ∀ c : Cursor, c.buffer = buffer → c.position ≤ start →
        ∃ i, FirstAt opening closing buffer start (limit < ·) i ∧
          LexicalError.tooDeep limit (c.positionOf site) (Cursor.context site) =
            .tooDeep limit i (String.ofList (buffer.extract i (i + 20)))) ∧
    ∀ content rest, scan opening closing limit (buffer.drop start) = .found (content, rest) →
      Nested opening closing limit content ∧
      ∀ front, front <+: opening :: content ++ [closing] → IsGroup opening closing front →
        front = opening :: content ++ [closing] := by
  refine ⟨scan_eq_absent_of_ne, fun hopening => ?_,
    fun _ hsite _ hbuffer hposition => tooDeep_of_scan hne hsite hbuffer hposition,
    fun content rest hfound => ?_⟩
  · exact ⟨fun _ => scan_eq_tooDeep_iff hne hopening, fun _ _ => scan_eq_found_at_iff hne hopening,
      scan_eq_absent_iff hne hopening⟩
  · obtain ⟨_, hnested⟩ := (scan_eq_found_iff hne).1 hfound
    have hbalanced := (nested_iff.1 hnested).1
    exact ⟨hnested, fun front hfront hgroup => hbalanced.eq_of_isGroup hne hfront hgroup⟩

/-- Behind `x`, a group that holds another one is found under the limit two; under the limit one it is
too deep at the inner one. -/
theorem scan_extent_nested :
    let text := "x[a[b]c]]".toList
    let c : Cursor := ⟨['x'], "[a[b]c]]".toList⟩
    '[' ≠ ']' ∧ text[0]? ≠ some '[' ∧ text[1]? = some '[' ∧ c.buffer = text ∧ c.position ≤ 1 ∧
    scan '[' ']' 2 (text.drop 0) = .absent ∧
    (scan '[' ']' 2 (text.drop 1) = .found ("a[b]c".toList, "]".toList) ∧
      Nested '[' ']' 2 "a[b]c".toList ∧
      ∀ front, front <+: '[' :: "a[b]c".toList ++ [']'] → IsGroup '[' ']' front →
        front = '[' :: "a[b]c".toList ++ [']']) ∧
    scan '[' ']' 1 (text.drop 1) = .tooDeep "[b]c]]".toList ∧
    ∃ i, FirstAt '[' ']' text 1 (1 < ·) i ∧
      LexicalError.tooDeep 1 (c.positionOf "[b]c]]".toList) (Cursor.context "[b]c]]".toList) =
        .tooDeep 1 i (String.ofList (text.extract i (i + 20))) := by
  intro text c
  have hne : '[' ≠ ']' := by decide
  have hother : text[0]? ≠ some '[' := by decide
  have hopening : text[1]? = some '[' := by decide
  have hbuffer : c.buffer = text := by decide
  have hposition : c.position ≤ 1 := by decide
  obtain ⟨habsent, _⟩ := scan_extent hne 2 text 0
  obtain ⟨_, hwide, _, hgroup⟩ := scan_extent hne 2 text 1
  obtain ⟨_, hnarrow, hplace, _⟩ := scan_extent hne 1 text 1
  have hfound : scan '[' ']' 2 (text.drop 1) = .found ("a[b]c".toList, "]".toList) :=
    ((hwide hopening).2.1 _ _).2 ⟨7, by decide, by decide,
      ⟨by decide, by decide, by decide, by decide⟩, by decide⟩
  have hdeep : scan '[' ']' 1 (text.drop 1) = .tooDeep "[b]c]]".toList :=
    ((hnarrow hopening).1 _).2 ⟨3, by decide, ⟨by decide, by decide, by decide, by decide⟩, by decide⟩
  exact ⟨hne, hother, hopening, hbuffer, hposition, habsent hother, ⟨hfound, hgroup _ _ hfound⟩,
    hdeep, hplace _ hdeep c hbuffer hposition⟩

end Group

end Reckon
