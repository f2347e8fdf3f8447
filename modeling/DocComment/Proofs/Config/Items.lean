import DocComment.Config.Basic
import DocComment.Proofs.Text.Lines

/-! Items are read from a text exactly as it holds them. The parts between the commas are those that
a text is joined from, and of a part white space alone is lost; so each text holds the items that
are read from it, and what it holds is read. -/

namespace DocComment.Config

open Text

variable {s : String} {parts xs : List String}

/-! ### Parts -/

theorem cutAtCommas_eq (s : List Char) : cutAtCommas s = s.splitOn ',' := by
  induction s with
  | nil => rfl
  | cons c s ih =>
    rw [List.splitOn, List.splitOnP_cons_eq_if_modifyHead, ← List.splitOn, cutAtCommas, ih]
    by_cases hc : c = ','
    · rw [if_pos hc, if_pos (beq_iff_eq.2 hc)]
    · rw [if_neg hc, if_neg (by simpa using hc)]
      obtain ⟨p, ps, hs⟩ := List.exists_cons_of_ne_nil (List.splitOn_ne_nil ',' s)
      rw [hs, List.modifyHead_cons]

theorem notMem_of_mem_cutAtCommas {s p : List Char} (hp : p ∈ cutAtCommas s) : ',' ∉ p := by
  induction s generalizing p with
  | nil => simp [List.mem_singleton.1 hp]
  | cons c s ih =>
    by_cases hc : c = ','
    · rw [cutAtCommas, if_pos hc] at hp
      rcases List.mem_cons.1 hp with rfl | hp
      · exact List.not_mem_nil
      · exact ih hp
    · have hne : cutAtCommas s ≠ [] := cutAtCommas_eq s ▸ List.splitOn_ne_nil ',' s
      obtain ⟨q, qs, hs⟩ := List.exists_cons_of_ne_nil hne
      rw [cutAtCommas, if_neg hc, hs] at hp
      rcases List.mem_cons.1 hp with rfl | hp
      · have hq : ',' ∉ q := ih (hs ▸ List.mem_cons_self)
        simp [hq, Ne.symm hc]
      · exact ih (hs ▸ List.mem_cons_of_mem q hp)

def itemsOf (ps : List (List Char)) : List String :=
  ((ps.map strip).filter fun p => !p.isEmpty).map String.ofList

theorem itemsOf_cons_of_blank {p : List Char} (h : strip p = []) (ps : List (List Char)) :
    itemsOf (p :: ps) = itemsOf ps := by
  rw [itemsOf, List.map_cons, List.filter_cons_of_neg (by simp [h]), itemsOf]

theorem itemsOf_cons_of_item {p : List Char} (h : strip p ≠ []) (ps : List (List Char)) :
    itemsOf (p :: ps) = String.ofList (strip p) :: itemsOf ps := by
  rw [itemsOf, List.map_cons, List.filter_cons_of_pos (by simpa using h), List.map_cons, itemsOf]

/-! ### Items that are held -/

theorem IsItem.strip_eq {a x b : String} (hx : IsItem x) (ha : IsBlank a) (hb : IsBlank b) :
    strip (a ++ x ++ b).toList = x.toList := by
  rw [String.toList_append, String.toList_append, List.append_assoc]
  exact trim_surrounded ha hb hx.head hx.last

theorem itemsOf_of_hold (h : Hold parts xs) (hxs : ∀ x ∈ xs, IsItem x) :
    itemsOf (parts.map String.toList) = xs := by
  induction h with
  | nil => rfl
  | blank hg _ ih =>
    rw [List.map_cons, itemsOf_cons_of_blank (trim_eq_nil hg), ih hxs]
  | @item a x b ps xs ha hb _ ih =>
    obtain ⟨hx, hxs⟩ := List.forall_mem_cons.1 hxs
    have hstrip := hx.strip_eq ha hb
    have hne : strip (a ++ x ++ b).toList ≠ [] := by
      rw [hstrip]
      exact fun h => hx.ne_empty (String.toList_eq_nil_iff.1 h)
    rw [List.map_cons, itemsOf_cons_of_item hne, hstrip, String.ofList_toList, ih hxs]

theorem IsBlank.notMem (h : IsBlank s) : ',' ∉ s.toList := by
  intro hc
  exact absurd (h _ hc) (by decide)

theorem notMem_of_hold (h : Hold parts xs) (hxs : ∀ x ∈ xs, IsItem x) :
    ∀ p ∈ parts, ',' ∉ p.toList := by
  induction h with
  | nil => simp
  | blank hg _ ih => exact List.forall_mem_cons.2 ⟨hg.notMem, ih hxs⟩
  | item ha hb _ ih =>
    obtain ⟨hx, hxs⟩ := List.forall_mem_cons.1 hxs
    refine List.forall_mem_cons.2 ⟨?_, ih hxs⟩
    simp [String.toList_append, ha.notMem, hx.notMem, hb.notMem]

theorem items_of_isListOf (h : IsListOf s xs) (hxs : ∀ x ∈ xs, IsItem x) : items s = xs := by
  obtain ⟨parts, hparts, rfl⟩ := h
  cases parts with
  | nil =>
    cases hparts
    rfl
  | cons p ps =>
    have hcut : cutAtCommas (",".intercalate (p :: ps)).toList = (p :: ps).map String.toList := by
      rw [cutAtCommas_eq, String.toList_intercalate]
      refine List.splitOn_intercalate ',' (fun l hl => ?_) (by simp)
      obtain ⟨q, hq, rfl⟩ := List.mem_map.1 hl
      exact notMem_of_hold hparts hxs q hq
    rw [items, hcut]
    exact itemsOf_of_hold hparts hxs

/-! ### Items that are read -/

theorem isItem_of_mem_items {x : String} (hx : x ∈ items s) : IsItem x := by
  obtain ⟨l, hl, rfl⟩ := List.mem_map.1 hx
  obtain ⟨hmem, hne⟩ := List.mem_filter.1 hl
  obtain ⟨p, hp, rfl⟩ := List.mem_map.1 hmem
  obtain ⟨hhead, hlast, hpart⟩ := ends_dropWhile p (p := isBlank)
  have htext : (String.ofList (strip p)).toList = strip p := String.toList_ofList
  constructor
  · intro hempty
    rw [hempty] at htext
    simp [← htext] at hne
  · rw [htext]
    exact fun hc => notMem_of_mem_cutAtCommas hp (hpart.subset hc)
  · rw [htext]
    exact hhead
  · rw [htext]
    exact hlast

theorem hold_itemsOf (ps : List (List Char)) : Hold (ps.map String.ofList) (itemsOf ps) := by
  induction ps with
  | nil => exact .nil
  | cons p ps ih =>
    obtain ⟨a, b, hp, ha, hb⟩ := exists_append_trim isBlank p
    by_cases h : strip p = []
    · rw [itemsOf_cons_of_blank h]
      rw [← strip, h, List.nil_append] at hp
      refine .blank ?_ ih
      rw [IsBlank, String.toList_ofList, hp]
      exact List.forall_mem_append.2 ⟨ha, hb⟩
    · have hpart : String.ofList p =
          String.ofList a ++ String.ofList (strip p) ++ String.ofList b := by
        rw [← String.ofList_append, ← String.ofList_append, List.append_assoc]
        exact congrArg String.ofList hp
      rw [itemsOf_cons_of_item h, List.map_cons, hpart]
      refine .item ?_ ?_ ih
      · rwa [IsBlank, String.toList_ofList]
      · rwa [IsBlank, String.toList_ofList]

theorem isListOf_items (s : String) : IsListOf s (items s) := by
  refine ⟨(cutAtCommas s.toList).map String.ofList, hold_itemsOf _, String.toList_injective ?_⟩
  have hparts : ((cutAtCommas s.toList).map String.ofList).map String.toList =
      cutAtCommas s.toList := by
    rw [List.map_map]
    exact List.map_id'' (fun _ => String.toList_ofList) _
  rw [String.toList_intercalate, hparts, cutAtCommas_eq]
  exact (List.intercalate_splitOn ',').symm

/-- Items alone, with nothing around them, are held. -/
theorem hold_self (xs : List String) : Hold xs xs := by
  induction xs with
  | nil => exact .nil
  | cons x xs ih =>
    have hempty : IsBlank "" := by simp [IsBlank]
    have hitem := Hold.item (x := x) hempty hempty ih
    rwa [String.empty_append, String.append_empty] at hitem

/-- Each item that is read from a text could be held between commas; joined with commas the items are
read again; and a list of such items is read from exactly the texts that hold it. -/
theorem items_lossless (s : String) :
    (∀ x ∈ items s, IsItem x) ∧ items (",".intercalate (items s)) = items s ∧
      ∀ xs : List String, (∀ x ∈ xs, IsItem x) → (items s = xs ↔ IsListOf s xs) := by
  have hitems : ∀ x ∈ items s, IsItem x := fun x => isItem_of_mem_items
  refine ⟨hitems, ?_, fun xs hxs => ⟨?_, fun h => items_of_isListOf h hxs⟩⟩
  · exact items_of_isListOf ⟨items s, hold_self _, rfl⟩ hitems
  · rintro rfl
    exact isListOf_items s

/-- White space of several kinds, parts without an item at both ends and in the middle, and an item
with a space inside. -/
theorem items_lossless_spaced :
    let s := ",api, \u3000 x y\t,, ,\n version\u00a0,"
    let xs := ["api", "x y", "version"]
    (∀ x ∈ xs, IsItem x) ∧ IsListOf s xs ∧ items s = xs ∧ items "api,x y,version" = xs := by
  intro s xs
  have hxs : ∀ x ∈ xs, IsItem x := by
    intro x hx
    simp only [xs, List.mem_cons, List.not_mem_nil, or_false] at hx
    rcases hx with rfl | rfl | rfl <;> constructor <;> simp [isBlank]
  have hparts : Hold ["", "" ++ "api" ++ "", " \u3000 " ++ "x y" ++ "\t", "",
      " ", "\n " ++ "version" ++ "\u00a0", ""] xs := by
    refine .blank ?_ (.item ?_ ?_ (.item ?_ ?_ (.blank ?_ (.blank ?_
      (.item ?_ ?_ (.blank ?_ .nil)))))) <;>
      simp [IsBlank, isBlank]
  obtain ⟨-, hjoined, hread⟩ := items_lossless s
  have hs : items s = xs := (hread xs hxs).2 ⟨_, hparts, by decide +kernel⟩
  rw [hs] at hjoined
  exact ⟨hxs, ⟨_, hparts, by decide +kernel⟩, hs, hjoined⟩

end DocComment.Config
