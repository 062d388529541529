import ImplicitPlot.Proofs.Symbols.Bindings
import ImplicitPlot.Proofs.Symbols.Spelling

/-
  Lookups at byte offsets. A text can be cut at an offset exactly if the offset is a boundary: it
  is not past the end and not inside a character (`Text.dropBytes?_eq_some_iff`,
  `Text.dropBytes?_eq_none_iff`). What `Trie.longestAt?` finds behind the cut is said by the finite
  map that the trie holds, whatever was inserted and erased before: the longest of its names that
  the text goes on with, or nothing if there is none.
-/
namespace ImplicitPlot

namespace Text

/-- An offset between two characters of a text, in front of all of them or behind them. -/
def IsBoundary (text : List Char) (offset : Nat) : Prop :=
  ∃ front rest, text = front ++ rest ∧ byteLength front = offset

/-- An offset between two bytes of one character of a text. -/
def IsInside (text : List Char) (offset : Nat) : Prop :=
  ∃ front c rest, text = front ++ c :: rest ∧
    byteLength front < offset ∧ offset < byteLength front + c.utf8Size

theorem dropBytes?_eq_some_iff {text rest : List Char} {offset : Nat} :
    dropBytes? offset text = some rest ↔ ∃ front, text = front ++ rest ∧ byteLength front = offset := by
  constructor
  · intro h
    fun_induction dropBytes? offset text with
    | case1 cs => exact ⟨[], (Option.some.inj h).symm ▸ rfl, rfl⟩
    | case2 n => cases h
    | case3 n c cs hle ih =>
      obtain ⟨front, rfl, hfront⟩ := ih h
      refine ⟨c :: front, rfl, ?_⟩
      rw [byteLength_cons, hfront]
      omega
    | case4 n c cs hlt => cases h
  · rintro ⟨front, rfl, rfl⟩
    exact dropBytes?_append front rest

theorem dropBytes?_eq_none_iff {text : List Char} {offset : Nat} :
    dropBytes? offset text = none ↔ byteLength text < offset ∨ IsInside text offset := by
  constructor
  · intro h
    fun_induction dropBytes? offset text with
    | case1 cs => cases h
    | case2 n => exact Or.inl n.succ_pos
    | case3 n c cs hle ih =>
      rcases ih h with hpast | ⟨front, d, rest, rfl, hbefore, hbehind⟩
      · left
        rw [byteLength_cons]
        omega
      · refine Or.inr ⟨c :: front, d, rest, rfl, ?_, ?_⟩ <;> rw [byteLength_cons] <;> omega
    | case4 n c cs hlt =>
      refine Or.inr ⟨[], c, cs, rfl, n.succ_pos, ?_⟩
      rw [byteLength_nil]
      omega
  · intro h
    rcases hdrop : dropBytes? offset text with _ | rest
    · rfl
    exfalso
    obtain ⟨front, rfl, rfl⟩ := dropBytes?_eq_some_iff.mp hdrop
    rcases h with hpast | ⟨front', c, rest', htext, hbefore, hbehind⟩
    · rw [byteLength_append] at hpast
      omega
    -- of two fronts of one text one is the start of the other
    · rcases List.append_eq_append_iff.mp htext with ⟨more, rfl, -⟩ | ⟨more, rfl, hmore⟩
      · rw [byteLength_append] at hbefore
        omega
      · cases more with
        | nil =>
          rw [List.append_nil] at hbefore
          omega
        | cons d more =>
          obtain rfl : c = d := (List.cons.inj hmore).1
          rw [byteLength_append, byteLength_cons] at hbehind
          omega

end Text

namespace Symbols.Trie

variable {α : Type} {t : Trie α}

/-- The longest name of a text is the one that no other name at its front is longer than. -/
theorem longest?_eq_some_iff {name rest : List Char} {v : α} :
    t.longest? (name ++ rest) = some (name.length, v) ↔
      t.get? name = some v ∧
        ∀ other w, t.get? other = some w → other <+: name ++ rest → other.length ≤ name.length := by
  constructor
  · intro h
    have hname := (longest?_eq_some h).2
    rw [List.take_left] at hname
    exact ⟨hname, fun other w hother hfront => longest?_le h hfront hother⟩
  · rintro ⟨hname, hlongest⟩
    rcases hfound : t.longest? (name ++ rest) with _ | ⟨n, w⟩
    · rw [get?_front_eq_none hfound (List.prefix_append name rest)] at hname
      cases hname
    obtain ⟨hn, hw⟩ := longest?_eq_some hfound
    have hle : name.length ≤ n := longest?_le hfound (List.prefix_append name rest) hname
    have hge : n ≤ name.length := by
      have hlength := hlongest _ w hw (List.take_prefix n _)
      rwa [List.length_take, Nat.min_eq_left hn] at hlength
    obtain rfl : n = name.length := Nat.le_antisymm hge hle
    rw [List.take_left, hname] at hw
    cases hw
    rfl

theorem longest?_eq_none_iff {cs : List Char} :
    t.longest? cs = none ↔ ∀ name v, t.get? name = some v → ¬name <+: cs := by
  constructor
  · intro h name v hname hfront
    rw [get?_front_eq_none h hfront] at hname
    cases hname
  · intro h
    refine longest?_eq_none fun front hfront => ?_
    rcases hget : t.get? front with _ | v
    · rfl
    · exact absurd hfront (h front v hget)

/-- What is found at the end of a front of a text is what is found in the rest. -/
theorem longestAt?_eq (front rest : List Char) :
    t.longestAt? (front ++ rest) (Text.byteLength front) =
      (t.longest? rest).map fun (n, v) =>
        (Text.byteLength front + Text.byteLength (rest.take n), v) := by
  unfold longestAt?
  rw [Text.dropBytes?_append, Option.bind_eq_bind, Option.bind_some]
  cases t.longest? rest <;> rfl

/-- A name that is found at an offset is the longest one there. -/
theorem longestAt?_eq_some_iff {text : List Char} {start stop : Nat} {v : α} :
    t.longestAt? text start = some (stop, v) ↔
      ∃ front name rest, text = front ++ name ++ rest ∧ Text.byteLength front = start ∧
        stop = start + Text.byteLength name ∧ t.get? name = some v ∧
        ∀ other w, t.get? other = some w → other <+: name ++ rest →
          other.length ≤ name.length := by
  constructor
  · intro h
    rcases hdrop : Text.dropBytes? start text with _ | rest
    · unfold longestAt? at h
      rw [hdrop] at h
      cases h
    obtain ⟨front, rfl, rfl⟩ := Text.dropBytes?_eq_some_iff.mp hdrop
    rw [longestAt?_eq, Option.map_eq_some_iff] at h
    obtain ⟨⟨n, w⟩, hlongest, heq⟩ := h
    cases heq
    obtain ⟨hn, -⟩ := longest?_eq_some hlongest
    have hlength : (rest.take n).length = n := by rw [List.length_take, Nat.min_eq_left hn]
    have hname : t.longest? (rest.take n ++ rest.drop n) = some ((rest.take n).length, v) := by
      rw [List.take_append_drop, hlength, hlongest]
    refine ⟨front, rest.take n, rest.drop n, ?_, rfl, rfl, longest?_eq_some_iff.mp hname⟩
    rw [List.append_assoc, List.take_append_drop]
  · rintro ⟨front, name, rest, rfl, rfl, rfl, hname⟩
    rw [List.append_assoc, longestAt?_eq, longest?_eq_some_iff.mpr hname]
    simp only [Option.map_some, List.take_left]

theorem longestAt?_eq_none_iff {text : List Char} {start : Nat} :
    t.longestAt? text start = none ↔
      Text.byteLength text < start ∨ Text.IsInside text start ∨
      ∃ front rest, text = front ++ rest ∧ Text.byteLength front = start ∧
        ∀ name v, t.get? name = some v → ¬name <+: rest := by
  constructor
  · intro h
    rcases hdrop : Text.dropBytes? start text with _ | rest
    · rcases Text.dropBytes?_eq_none_iff.mp hdrop with hpast | hinside
      · exact Or.inl hpast
      · exact Or.inr (Or.inl hinside)
    obtain ⟨front, rfl, rfl⟩ := Text.dropBytes?_eq_some_iff.mp hdrop
    rw [longestAt?_eq, Option.map_eq_none_iff] at h
    exact Or.inr (Or.inr ⟨front, rest, rfl, rfl, longest?_eq_none_iff.mp h⟩)
  · intro h
    rw [← or_assoc, ← Text.dropBytes?_eq_none_iff] at h
    rcases h with hdrop | ⟨front, rest, rfl, rfl, hnone⟩
    · unfold longestAt?
      rw [hdrop]
      rfl
    · rw [longestAt?_eq, longest?_eq_none_iff.mpr hnone]
      rfl

/-- A lookup at an offset knows the names of the map that the trie holds, whatever was inserted and
erased before. It finds nothing exactly if the offset is past the end of the text, inside a
character, or in front of a rest that starts with no name of the map. Otherwise it finds the longest
name that the rest starts with: the name's value and the offset of its end, which is a boundary
behind the start. -/
theorem longestAt?_reads_longest_name (changes : List (Change α)) (text : List Char)
    (start : Nat) :
    let t := changed changes
    let m := Bindings.changed changes
    (t.longestAt? text start = none ↔
      Text.byteLength text < start ∨ Text.IsInside text start ∨
      ∃ front rest, text = front ++ rest ∧ Text.byteLength front = start ∧
        ∀ name ∈ m, ¬name <+: rest) ∧
    (∀ stop v, t.longestAt? text start = some (stop, v) ↔
      ∃ front name rest, text = front ++ name ++ rest ∧ Text.byteLength front = start ∧
        stop = start + Text.byteLength name ∧ m.lookup name = some v ∧
        ∀ other ∈ m, other <+: name ++ rest → other.length ≤ name.length) ∧
    ∀ stop v, t.longestAt? text start = some (stop, v) →
      start < stop ∧ Text.IsBoundary text stop := by
  intro t m
  have hholds : t.Holds m := holds_changed changes
  have hnames : ∀ P : List Char → Prop,
      (∀ name v, t.get? name = some v → P name) ↔ ∀ name ∈ m, P name := by
    intro P
    refine forall_congr' fun name => ?_
    rw [← Finmap.lookup_isSome, Option.isSome_iff_exists, ← hholds.get_eq, exists_imp]
  refine ⟨?_, fun stop v => ?_, fun stop v h => ?_⟩
  · rw [longestAt?_eq_none_iff]
    simp only [hnames]
  · rw [longestAt?_eq_some_iff]
    simp only [hnames]
    simp only [hholds.get_eq]
  · obtain ⟨front, name, rest, rfl, rfl, rfl, hname, -⟩ := longestAt?_eq_some_iff.mp h
    have hne : name ≠ [] := by
      rintro rfl
      rw [get?, Forest.value?_nil] at hname
      cases hname
    obtain ⟨c, cs, rfl⟩ := List.exists_cons_of_ne_nil hne
    have hc := c.utf8Size_pos
    refine ⟨?_, front ++ c :: cs, rest, rfl, Text.byteLength_append _ _⟩
    rw [Text.byteLength_cons]
    omega

end Symbols.Trie

end ImplicitPlot
