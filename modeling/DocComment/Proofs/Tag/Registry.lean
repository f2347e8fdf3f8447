import DocComment.Tag.Request
import Mathlib.Data.List.Induction
import Mathlib.Data.List.Nodup

/-! A registry is a map in which the last write wins and the first write gives the place, closed
by the first freeze. One entry replaces what its name had or comes last; one request writes its
entry into an open registry and leaves a frozen one alone; the run follows by induction on the
requests. -/

namespace DocComment.Builtin

theorem mem_all (b : Builtin) : b ∈ all := by
  cases b <;> decide

theorem ofName?_name (b : Builtin) : ofName? b.name = some b := by
  cases b <;> rfl

theorem name_injective : Function.Injective name := fun a b h =>
  Option.some.inj (by rw [← ofName?_name a, ← ofName?_name b, h])

end DocComment.Builtin

namespace DocComment.Registry

variable {ι : Type} {use : ι → Interpreter} {r : Registry ι} {q : Request ι}

/-! ### Entries -/

theorem find?_insert (name key : String) (i : ι) (es : List (String × ι)) :
    ((insert name i es).find? fun e => e.1 = key) =
      if name = key then some (name, i) else es.find? fun e => e.1 = key := by
  induction es with
  | nil => by_cases hk : name = key <;> simp [insert, hk]
  | cons e es ih =>
    by_cases he : e.1 = name
    · by_cases hk : name = key <;> simp [insert, he, hk]
    · rw [insert, if_neg he]
      by_cases hk : e.1 = key
      · have hne : name ≠ key := fun h => he (hk.trans h.symm)
        simp [hk, hne]
      · simp [hk, ih]

theorem get?_put (r : Registry ι) (name key : String) (i : ι) :
    (r.put name i).get? key = if name = key then some i else r.get? key := by
  rw [get?, put, find?_insert]
  split_ifs <;> rfl

theorem map_fst_insert (name : String) (i : ι) (es : List (String × ι)) :
    (insert name i es).map Prod.fst =
      if name ∈ es.map Prod.fst then es.map Prod.fst else es.map Prod.fst ++ [name] := by
  induction es with
  | nil => rfl
  | cons e es ih =>
    by_cases he : e.1 = name
    · simp [insert, he]
    · by_cases hn : name ∈ es.map Prod.fst <;> simp_all [insert, Ne.symm he]

/-- A name that is there keeps its place, another one comes last. -/
theorem names_put (r : Registry ι) (name : String) (i : ι) :
    (r.put name i).names = if name ∈ r.names then r.names else r.names ++ [name] :=
  map_fst_insert name i r.entries

def putAll (r : Registry ι) (ws : List (String × ι)) : Registry ι :=
  ws.foldl (fun r e => r.put e.1 e.2) r

theorem putAll_concat (r : Registry ι) (ws : List (String × ι)) (e : String × ι) :
    r.putAll (ws ++ [e]) = (r.putAll ws).put e.1 e.2 := List.foldl_concat _ _ _ _

theorem putAll_append (r : Registry ι) (ws us : List (String × ι)) :
    r.putAll (ws ++ us) = (r.putAll ws).putAll us := List.foldl_append

theorem frozen_putAll (r : Registry ι) (ws : List (String × ι)) :
    (r.putAll ws).frozen = r.frozen := by
  induction ws using List.reverseRecOn with
  | nil => rfl
  | append_singleton ws e ih =>
    rw [putAll_concat]
    exact ih

/-- The last of the entries of a name wins. -/
theorem get?_putAll (ws : List (String × ι)) (key : String) :
    (putAll {} ws).get? key = ws.reverse.lookup key := by
  induction ws using List.reverseRecOn with
  | nil => rfl
  | append_singleton ws e ih =>
    rw [putAll_concat, get?_put, ih, List.reverse_concat, List.lookup_cons]
    by_cases hk : e.1 = key
    · simp [hk]
    · have hne : (key == e.1) = false := by simpa using Ne.symm hk
      simp [hk, hne]

theorem eraseDups_concat (ns : List String) (n : String) :
    (ns ++ [n]).eraseDups = if n ∈ ns then ns.eraseDups else ns.eraseDups ++ [n] := by
  rw [List.eraseDups_append, List.removeAll]
  by_cases h : n ∈ ns <;> simp [h, List.eraseDups_cons]

/-- The first of the entries of a name gives it its place. -/
theorem names_putAll (ws : List (String × ι)) :
    (putAll {} ws).names = (ws.map Prod.fst).eraseDups := by
  induction ws using List.reverseRecOn with
  | nil => rfl
  | append_singleton ws e ih =>
    rw [putAll_concat, names_put, ih, List.map_append, List.map_singleton, eraseDups_concat]
    simp only [List.mem_eraseDups]

theorem nodup_names_putAll (ws : List (String × ι)) : (putAll {} ws).names.Nodup := by
  induction ws using List.reverseRecOn with
  | nil => exact List.nodup_nil
  | append_singleton ws e ih =>
    rw [putAll_concat, names_put]
    split_ifs with hn
    · exact ih
    · rw [← List.concat_eq_append]
      exact ih.concat hn

/-! ### Built-in tags -/

theorem get?_putAll_builtin {renderer : Renderer} {bs : List Builtin} {name : String}
    {i : Interpreter} :
    (putAll {} (bs.map fun b => (b.name, b.interpreter renderer))).get? name = some i ↔
      ∃ b ∈ bs, b.name = name ∧ b.interpreter renderer = i := by
  induction bs using List.reverseRecOn with
  | nil => simp [putAll, get?]
  | append_singleton bs b ih =>
    rw [List.map_append, List.map_singleton, putAll_concat, get?_put]
    split_ifs with hb
    · constructor
      · intro h
        exact ⟨b, by simp, hb, Option.some.inj h⟩
      · rintro ⟨c, -, hc, rfl⟩
        rw [Builtin.name_injective (hb.trans hc.symm)]
    · rw [ih]
      simp [hb, or_and_right, exists_or]

/-- The built-in tags are found under their names, unless these are disabled. -/
theorem get?_builtin_eq_some_iff {renderer : Renderer} {disabled : List String} {name : String}
    {i : Interpreter} :
    (builtin renderer disabled).get? name = some i ↔
      name ∉ disabled ∧ ∃ b : Builtin, b.name = name ∧ b.interpreter renderer = i := by
  have hput (bs : List Builtin) : (freeze (bs.foldl
      (fun r b => r.put b.name (b.interpreter renderer)) {})).get? name =
        (putAll {} (bs.map fun b => (b.name, b.interpreter renderer))).get? name := by
    rw [putAll, List.foldl_map]
    rfl
  rw [builtin, hput, get?_putAll_builtin]
  simp only [List.mem_filter, Builtin.mem_all, true_and, Bool.not_eq_true', List.contains_eq_mem,
    decide_eq_false_iff_not]
  constructor
  · rintro ⟨b, hb, rfl, rfl⟩
    exact ⟨hb, b, rfl, rfl⟩
  · rintro ⟨hb, b, rfl, rfl⟩
    exact ⟨b, hb, rfl, rfl⟩

/-! ### The sorted names -/

theorem available_perm (r : Registry ι) : r.available.Perm r.names := List.mergeSort_perm _ _

theorem available_ascending (h : r.names.Nodup) : r.available.Pairwise (· < ·) := by
  have hsorted : r.available.Pairwise fun a b => decide (a ≤ b) = true :=
    List.pairwise_mergeSort
      (fun a b c hab hbc => by simpa using String.le_trans (by simpa using hab) (by simpa using hbc))
      (fun a b => by simpa using String.le_total a b) r.names
  have hnodup : r.available.Nodup := r.available_perm.nodup_iff.2 h
  refine (hsorted.and hnodup).imp fun {a b} hab => ?_
  obtain ⟨hle, hne⟩ := hab
  by_contra hlt
  exact hne (String.le_antisymm (by simpa using hle) (String.not_lt.1 hlt))

/-! ### One request -/

theorem register_of_refuses {name : Value} {candidate : Candidate ι}
    (h : r.Refuses name candidate) :
    ∃ e, r.register name candidate = .error e ∧ ∀ n, e ≠ .unknownName n := by
  by_cases hf : r.frozen = true
  · exact ⟨.frozen name, by simp [register, hf], by simp⟩
  · have hinvalid : (∀ n, name = .text n → Occurrence.isName n = false) →
        ∃ e, r.register name candidate = .error e ∧ ∀ n, e ≠ .unknownName n := by
      intro hname
      refine ⟨.invalidName name, ?_, by simp⟩
      cases name with
      | text n => simp [register, hf, hname n rfl]
      | _ => simp [register, hf]
    by_cases hname : ∃ n, name = .text n ∧ Occurrence.isName n = true
    · obtain ⟨n, rfl, hn⟩ := hname
      obtain ⟨v, rfl⟩ : ∃ v, candidate = .other v := by
        rcases h with h | h | h
        · exact absurd h hf
        · exact absurd hn (by simp [h n rfl])
        · exact h
      exact ⟨.noInterpreter n v, by simp [register, hf, hn], by simp⟩
    · exact hinvalid fun n hn => by simpa using fun ht => hname ⟨n, hn, ht⟩

theorem answer_of_frozen (h : r.frozen = true) (q : Request ι) : (r.answer use q).2 = r := by
  cases q with
  | register name candidate =>
    obtain ⟨e, he, -⟩ := register_of_refuses (Or.inl h : r.Refuses name candidate)
    simp [answer, he]
  | freeze =>
    cases r
    simp_all [answer, Registry.freeze]
  | index name =>
    rw [answer]
    split <;> rfl
  | _ => rfl

theorem answer_of_isRead (h : q.isRead = true) : (r.answer use q).2 = r := by
  cases q with
  | register => exact absurd h (by simp [Request.isRead])
  | freeze => exact absurd h (by simp [Request.isRead])
  | index name =>
    rw [answer]
    split <;> rfl
  | _ => rfl

/-- A registration is refused unless it has an entry, and an open registry takes the entry. -/
theorem answer_register_of_open (h : r.frozen = false) (name : Value) (candidate : Candidate ι) :
    (r.answer use (.register name candidate)).2 =
      r.putAll (Request.entry? (.register name candidate)).toList := by
  by_cases hr : r.Refuses name candidate
  · obtain ⟨e, he, -⟩ := register_of_refuses hr
    have hentry : Request.entry? (.register name candidate) = none := by
      rcases hr with hr | hr | ⟨v, rfl⟩
      · exact absurd hr (by simp [h])
      · cases name with
        | text n => cases candidate <;> simp [Request.entry?, hr n rfl]
        | _ => rfl
      · cases name <;> rfl
    rw [hentry]
    simp [answer, he, putAll]
  · simp only [Refuses, not_or, not_forall, not_exists, Bool.not_eq_false] at hr
    obtain ⟨-, ⟨n, rfl, hn⟩, hc⟩ := hr
    cases candidate with
    | interpreter i => simp [answer, register, h, hn, Request.entry?, putAll]
    | other v => exact absurd rfl (hc v)

theorem answer_of_open (h : r.frozen = false) (hq : q.isFreeze = false) :
    (r.answer use q).2 = r.putAll q.entry?.toList := by
  cases q with
  | register name candidate => exact answer_register_of_open h name candidate
  | freeze => exact absurd hq (by simp [Request.isFreeze])
  | _ => exact answer_of_isRead rfl

theorem isName_of_entry? {e : String × ι} (h : q.entry? = some e) :
    Occurrence.isName e.1 = true := by
  unfold Request.entry? at h
  split at h
  · split_ifs at h with hn
    obtain rfl := Option.some.inj h
    exact hn
  · exact absurd h (by simp)

/-! ### Runs -/

theorem answerAll_of_frozen (h : r.frozen = true) (qs : List (Request ι)) :
    (r.answerAll use qs).2 = r := by
  induction qs with
  | nil => rfl
  | cons q qs ih =>
    have hq : (r.answer use q).2 = r := answer_of_frozen h q
    rw [answerAll]
    simp only [hq, ih]

theorem writes_cons (h : q.isFreeze = false) (qs : List (Request ι)) :
    writes (q :: qs) = q.entry?.toList ++ writes qs := by
  rw [writes, List.takeWhile_cons_of_pos (by simp [h]), List.filterMap_cons]
  cases q.entry? <;> rfl

/-- An open registry takes what requests write, and is frozen when one of them freezes it. -/
theorem answerAll_of_open (h : r.frozen = false) (qs : List (Request ι)) :
    (r.answerAll use qs).2 = { r.putAll (writes qs) with frozen := qs.any Request.isFreeze } := by
  induction qs generalizing r with
  | nil =>
    cases r
    simp_all [answerAll, writes, putAll]
  | cons q qs ih =>
    rw [answerAll]
    dsimp only
    cases hq : q.isFreeze with
    | true =>
      obtain rfl : q = .freeze := by cases q <;> simp_all [Request.isFreeze]
      exact answerAll_of_frozen rfl qs
    | false =>
      have hopen : (r.putAll q.entry?.toList).frozen = false := (frozen_putAll r _).trans h
      rw [answer_of_open h hq, ih hopen, writes_cons hq, putAll_append, List.any_cons, hq,
        Bool.false_or]

theorem answerAll_concat (r : Registry ι) (qs : List (Request ι)) (q : Request ι) :
    r.answerAll use (qs ++ [q]) =
      ((r.answerAll use qs).1 ++ [((r.answerAll use qs).2.answer use q).1],
        ((r.answerAll use qs).2.answer use q).2) := by
  induction qs generalizing r with
  | nil => rfl
  | cons p qs ih =>
    simp only [List.cons_append, answerAll, ih]

/-- Every name that is written is a name of a tag. -/
theorem isName_of_mem_writes {qs : List (Request ι)} {e : String × ι} (h : e ∈ writes qs) :
    Occurrence.isName e.1 = true := by
  obtain ⟨q, -, hq⟩ := List.mem_filterMap.1 h
  exact isName_of_entry? hq

theorem records_answerAll (use : ι → Interpreter) (qs : List (Request ι)) :
    Records qs (answerAll use {} qs).2 := by
  rw [answerAll_of_open rfl qs]
  have hnames : (putAll {} (writes qs)).names = ((writes qs).map Prod.fst).eraseDups :=
    names_putAll (writes qs)
  exact {
    content := get?_putAll (writes qs)
    order := hnames
    size := (List.length_map Prod.fst).symm
    frozen := rfl
    valid := by
      intro name hname
      obtain ⟨e, he, rfl⟩ := List.mem_map.1 (List.mem_eraseDups.1 (hnames ▸ hname))
      exact isName_of_mem_writes he
    ascending := available_ascending (nodup_names_putAll (writes qs))
    listed := available_perm _ }

theorem keeps (use : ι → Interpreter) (r : Registry ι) (q : Request ι) : Keeps use r q where
  refused := by
    rintro name candidate rfl h
    obtain ⟨e, he, hne⟩ := register_of_refuses h
    exact ⟨e, by simp [answer, he], hne⟩
  read := answer_of_isRead
  frozen := by
    intro h
    rw [answer_of_frozen h]
    exact h

/-! ### Replies -/

/-- What is recorded is what requests are told. -/
theorem Records.tells {qs : List (Request ι)} (h : Records qs r) (hq : q.isRead = true) :
    Tells use (writes qs) q (r.answer use q).1 := by
  have hcontent := h.content
  cases q with
  | register => exact absurd hq (by simp [Request.isRead])
  | freeze => exact absurd hq (by simp [Request.isRead])
  | index name =>
    rw [answer]
    split
    next i hi => exact .index (hcontent name ▸ hi)
    next hnone => exact .missing (hcontent name ▸ hnone)
  | get name =>
    rw [answer, hcontent name]
    exact .get name
  | contains name =>
    rw [answer, hcontent name]
    exact .contains name
  | order =>
    rw [answer, h.order]
    exact .order
  | available => exact .available (h.order ▸ h.listed) h.ascending
  | resolve o =>
    have hheld : r.interpreters use = fun name => ((writes qs).reverse.lookup name).map use :=
      funext fun name => congrArg (Option.map use) (hcontent name)
    rw [answer, hheld]
    exact .resolve o

theorem getElem?_answerAll (r : Registry ι) (qs : List (Request ι)) (n : Nat) :
    (r.answerAll use qs).1[n]? =
      qs[n]?.map fun q => ((r.answerAll use (qs.take n)).2.answer use q).1 := by
  induction qs generalizing r n with
  | nil => rfl
  | cons q qs ih =>
    cases n with
    | zero => rfl
    | succ n => exact ih (r.answer use q).2 n

/-- In a run every request that only asks is told what the requests before it have written. -/
theorem tells_answerAll (use : ι → Interpreter) {qs : List (Request ι)} {n : Nat} {q : Request ι}
    (hn : qs[n]? = some q) (hq : q.isRead = true) :
    ∃ reply, (answerAll use {} qs).1[n]? = some reply ∧ Tells use (writes (qs.take n)) q reply := by
  refine ⟨_, ?_, (records_answerAll use (qs.take n)).tells hq⟩
  rw [getElem?_answerAll, hn, Option.map_some]

/-! ### The whole -/

/-- After any requests to an empty registry it holds what they have written before the first
freeze. The request that follows is answered from that, and leaves it as it is when it is
refused or only asks. -/
theorem answerAll_records_keeps (use : ι → Interpreter) (qs : List (Request ι)) (q : Request ι) :
    Records qs (answerAll use {} qs).2 ∧ Keeps use (answerAll use {} qs).2 q ∧
      answerAll use {} (qs ++ [q]) =
        ((answerAll use {} qs).1 ++ [((answerAll use {} qs).2.answer use q).1],
          ((answerAll use {} qs).2.answer use q).2) :=
  ⟨records_answerAll use qs, keeps use _ q, answerAll_concat {} qs q⟩

end DocComment.Registry
