import TurboServe.Canary.Prometheus
import TurboServe.Lib.Sorting

/-!
# A label value cannot break out of its selector

What `format_selector` renders reads back as the labels it was given, so two pairs of label
maps have one text exactly if they are equal.
-/

namespace TurboServe.Canary

/-! ## §1  Escaping -/

/-- What the three replacements make of one character. -/
def escapeChar (c : Char) : List Char :=
  if c = '\\' then ['\\', '\\'] else if c = '"' then ['\\', '"']
  else if c = '\n' then ['\\', 'n'] else [c]

/-- The replacements in their order escape each character once. -/
theorem escapeLabelValue_eq (value : List Char) :
    escapeLabelValue value = value.flatMap escapeChar := by
  unfold escapeLabelValue replace
  rw [List.flatMap_assoc, List.flatMap_assoc]
  congr 1
  funext c
  unfold escapeChar
  by_cases hbackslash : c = '\\'
  · subst hbackslash
    rfl
  by_cases hquote : c = '"'
  · subst hquote
    rfl
  by_cases hnewline : c = '\n'
  · subst hnewline
    rfl
  rw [if_neg hbackslash, if_neg hbackslash, if_neg hquote, if_neg hnewline]
  simp only [List.flatMap_cons, List.flatMap_nil, List.append_nil, if_neg hquote, if_neg hnewline]

/-- A literal ends with the first quote that is not escaped, and an escaped value has none. -/
theorem readLiteral_escape (value rest : List Char) :
    readLiteral (escapeLabelValue value ++ '"' :: rest) = some (value, rest) := by
  rw [escapeLabelValue_eq]
  induction value with
  | nil => rfl
  | cons c value ih =>
      rw [List.flatMap_cons, List.append_assoc]
      by_cases hbackslash : c = '\\'
      · subst hbackslash
        change readLiteral ('\\' :: '\\' :: (value.flatMap escapeChar ++ '"' :: rest)) = _
        rw [readLiteral, ih]
        rfl
      by_cases hquote : c = '"'
      · subst hquote
        change readLiteral ('\\' :: '"' :: (value.flatMap escapeChar ++ '"' :: rest)) = _
        rw [readLiteral, ih]
        rfl
      by_cases hnewline : c = '\n'
      · subst hnewline
        change readLiteral ('\\' :: 'n' :: (value.flatMap escapeChar ++ '"' :: rest)) = _
        rw [readLiteral, ih]
        rfl
      rw [escapeChar, if_neg hbackslash, if_neg hquote, if_neg hnewline, List.singleton_append]
      rw [readLiteral, ih]
      · exact hquote
      · exact hnewline
      · rintro rfl
        exact absurd rfl hbackslash
      · rintro c rest rfl
        exact absurd rfl hbackslash

/-! ## §2  Matchers -/

theorem isNameChar_of_valid {name : List Char} (h : ValidName name) {rest : List Char}
    (hrest : ∀ c ∈ rest.head?, isNameChar c = false) :
    (name ++ rest).takeWhile isNameChar = name ∧ (name ++ rest).dropWhile isNameChar = rest := by
  have hstop : rest.takeWhile isNameChar = [] ∧ rest.dropWhile isNameChar = rest := by
    cases rest with
    | nil => exact ⟨rfl, rfl⟩
    | cons c rest =>
        have hc : ¬ isNameChar c = true := by rw [hrest c rfl]; exact Bool.false_ne_true
        exact ⟨List.takeWhile_cons_of_neg hc, List.dropWhile_cons_of_neg hc⟩
  rw [List.takeWhile_append_of_pos h.2.1, List.dropWhile_append_of_pos h.2.1, hstop.1, hstop.2]
  exact ⟨List.append_nil _, rfl⟩

theorem readMatcher_renderLabel {label : List Char × List Char} (h : ValidName label.1)
    (op : MatchOp) (rest : List Char) :
    readMatcher (renderLabel op label ++ rest) = some (⟨label.1, op, label.2⟩, rest) := by
  have hop : ∀ tail, readOp (op.text ++ '"' :: tail) = some (op, tail) := by
    intro tail
    cases op <;> rfl
  have hhead : ∀ tail, ∀ c ∈ (op.text ++ '"' :: tail).head?, isNameChar c = false := by
    intro tail c hc
    cases op <;> cases hc <;> rfl
  obtain ⟨htake, hdrop⟩ := isNameChar_of_valid h
    (hhead (escapeLabelValue label.2 ++ '"' :: rest))
  have htext : renderLabel op label ++ rest =
      label.1 ++ (op.text ++ '"' :: (escapeLabelValue label.2 ++ '"' :: rest)) := by
    simp only [renderLabel, List.append_assoc, List.cons_append, List.nil_append]
  rw [readMatcher, htext, htake, hdrop, hop]
  dsimp only
  rw [if_neg h.1, readLiteral_escape]
  rfl

/-- A list of matchers as it is rendered. -/
theorem readMatchers_intercalate {parts : List (MatchOp × List Char × List Char)}
    (hparts : parts ≠ []) (hvalid : ∀ x ∈ parts, ValidName x.2.1) {n : ℕ}
    (hn : parts.length ≤ n) :
    readMatchers n ([','].intercalate (parts.map fun x => renderLabel x.1 x.2) ++ ['}']) =
      some (parts.map fun x => ⟨x.2.1, x.1, x.2.2⟩) := by
  induction parts generalizing n with
  | nil => exact absurd rfl hparts
  | cons x parts ih =>
      obtain ⟨m, rfl⟩ := Nat.exists_eq_succ_of_ne_zero (by
        rw [List.length_cons] at hn
        omega : n ≠ 0)
      have hx := hvalid x List.mem_cons_self
      cases parts with
      | nil =>
          rw [List.map_singleton, List.intercalate_singleton, readMatchers,
            readMatcher_renderLabel hx]
          rfl
      | cons y parts =>
          have hrest := ih (List.cons_ne_nil _ _)
            (fun z hz => hvalid z (List.mem_cons_of_mem _ hz)) (Nat.le_of_succ_le_succ hn)
          rw [List.map_cons, List.map_cons, List.intercalate_cons_cons, List.append_assoc,
            List.append_assoc, List.singleton_append, readMatchers, readMatcher_renderLabel hx]
          rw [List.map_cons] at hrest
          change (readMatchers m (_ ++ ['}'])).map _ = _
          rw [hrest]
          rfl

theorem length_le_intercalate {parts : List (List Char)} (h : ∀ p ∈ parts, p ≠ []) :
    parts.length ≤ ([','].intercalate parts).length := by
  induction parts with
  | nil => exact Nat.zero_le _
  | cons p parts ih =>
      have hp : 0 < p.length := List.length_pos_iff.mpr (h p List.mem_cons_self)
      have hrest := ih fun q hq => h q (List.mem_cons_of_mem _ hq)
      cases parts with
      | nil =>
          rw [List.intercalate_singleton]
          exact hp
      | cons q parts =>
          rw [List.intercalate_cons_cons, List.length_append, List.length_append, List.length_cons]
          rw [List.length_singleton]
          omega

/-! ## §3  The whole selector -/

theorem LabelMap.sorted_perm (labels : LabelMap) : labels.sorted.Perm labels.items :=
  List.mergeSort_perm _ _

theorem LabelMap.sorted_valid (labels : LabelMap) : ∀ x ∈ labels.sorted, ValidName x.1 :=
  fun x hx => labels.valid x (labels.sorted_perm.subset hx)

theorem readSelector_formatSelector (labels regex : LabelMap) :
    readSelector (formatSelector labels regex) =
      some (labels.matchers .equal ++ regex.matchers .regex) := by
  let parts : List (MatchOp × List Char × List Char) :=
    labels.sorted.map (fun x => (MatchOp.equal, x)) ++
      regex.sorted.map (fun x => (MatchOp.regex, x))
  have hrender : labels.sorted.map (renderLabel .equal) ++
      regex.sorted.map (renderLabel .regex) = parts.map fun x => renderLabel x.1 x.2 := by
    rw [List.map_append, List.map_map, List.map_map]
    rfl
  have hmatchers : labels.matchers .equal ++ regex.matchers .regex =
      parts.map fun x => ⟨x.2.1, x.1, x.2.2⟩ := by
    rw [List.map_append, List.map_map, List.map_map]
    rfl
  have hvalid : ∀ x ∈ parts, ValidName x.2.1 := by
    intro x hx
    rcases List.mem_append.mp hx with hx | hx
    · obtain ⟨label, hlabel, rfl⟩ := List.mem_map.mp hx
      exact labels.sorted_valid label hlabel
    · obtain ⟨label, hlabel, rfl⟩ := List.mem_map.mp hx
      exact regex.sorted_valid label hlabel
  have hnonempty : ∀ p ∈ parts.map fun x => renderLabel x.1 x.2, p ≠ [] := by
    intro p hp
    obtain ⟨x, -, rfl⟩ := List.mem_map.mp hp
    unfold renderLabel
    intro h
    exact List.cons_ne_nil _ _ (List.append_eq_nil_iff.mp h).2
  rw [formatSelector, hrender, hmatchers]
  clear_value parts
  by_cases hparts : parts = []
  · rw [hparts]
    rfl
  · rw [if_neg (mt List.map_eq_nil_iff.mp hparts)]
    refine readMatchers_intercalate hparts hvalid ?_
    have hlength := length_le_intercalate hnonempty
    rw [List.length_map] at hlength
    change parts.length ≤
      ([','].intercalate (parts.map fun x => renderLabel x.1 x.2) ++ ['}']).length
    rw [List.length_append]
    omega

/-- Sorting gives equal maps one list of items. -/
theorem LabelMap.sorted_eq {labels labels' : LabelMap} :
    labels.sorted = labels'.sorted ↔ labels.items.Perm labels'.items := by
  constructor
  · intro h
    exact labels.sorted_perm.symm.trans (h ▸ labels'.sorted_perm)
  · intro h
    have hsorted := fun items : LabelMap => Lib.pairwise_sortBy toLex items.items
    refine List.Perm.eq_of_pairwise (fun a b _ _ hab hba => ?_) (hsorted labels)
      (hsorted labels') (labels.sorted_perm.trans (h.trans labels'.sorted_perm.symm))
    exact toLex_inj.mp (le_antisymm hab hba)

theorem LabelMap.matchers_eq {op : MatchOp} {labels labels' : LabelMap}
    (h : labels.matchers op = labels'.matchers op) : labels.items.Perm labels'.items := by
  refine LabelMap.sorted_eq.mp (List.map_injective_iff.mpr ?_ h)
  rintro ⟨n, v⟩ ⟨n', v'⟩ heq
  cases heq
  rfl

theorem LabelMap.op_of_mem_matchers {op : MatchOp} {labels : LabelMap} {m : Matcher}
    (h : m ∈ labels.matchers op) : m.op = op := by
  obtain ⟨x, -, rfl⟩ := List.mem_map.mp h
  rfl

/-- The operator tells the two maps of a selector apart. -/
theorem LabelMap.filter_matchers (op : MatchOp) (labels regex : LabelMap) :
    (labels.matchers .equal ++ regex.matchers .regex).filter (fun m => m.op = op) =
      (match op with | .equal => labels | .regex => regex).matchers op := by
  rw [List.filter_append]
  cases op with
  | equal =>
      rw [List.filter_eq_self.mpr, List.filter_eq_nil_iff.mpr, List.append_nil]
      · intro m hm
        rw [LabelMap.op_of_mem_matchers hm]
        decide
      · exact fun m hm => decide_eq_true (LabelMap.op_of_mem_matchers hm)
  | regex =>
      rw [List.filter_eq_nil_iff.mpr, List.filter_eq_self.mpr, List.nil_append]
      · exact fun m hm => decide_eq_true (LabelMap.op_of_mem_matchers hm)
      · intro m hm
        rw [LabelMap.op_of_mem_matchers hm]
        decide

/-- The text of a selector reads back as the labels, operators and values it was made from,
and two pairs of label maps have the same text exactly if they have the same items. -/
theorem selector_faithful (labels regex : LabelMap) :
    readSelector (formatSelector labels regex) =
        some (labels.matchers .equal ++ regex.matchers .regex) ∧
      (labels.matchers .equal ++ regex.matchers .regex).Perm
        (labels.items.map (fun x => ⟨x.1, .equal, x.2⟩) ++
          regex.items.map (fun x => ⟨x.1, .regex, x.2⟩)) ∧
      ∀ labels' regex' : LabelMap,
        formatSelector labels regex = formatSelector labels' regex' ↔
          labels.items.Perm labels'.items ∧ regex.items.Perm regex'.items := by
  refine ⟨readSelector_formatSelector labels regex, ?_, fun labels' regex' => ?_⟩
  · exact (labels.sorted_perm.map _).append (regex.sorted_perm.map _)
  constructor
  · intro h
    have hread := congrArg readSelector h
    rw [readSelector_formatSelector, readSelector_formatSelector, Option.some_inj] at hread
    constructor
    · have h := congrArg (List.filter fun m => decide (m.op = .equal)) hread
      rw [LabelMap.filter_matchers, LabelMap.filter_matchers] at h
      exact LabelMap.matchers_eq h
    · have h := congrArg (List.filter fun m => decide (m.op = .regex)) hread
      rw [LabelMap.filter_matchers, LabelMap.filter_matchers] at h
      exact LabelMap.matchers_eq h
  · rintro ⟨hlabels, hregex⟩
    rw [formatSelector, formatSelector, LabelMap.sorted_eq.mpr hlabels,
      LabelMap.sorted_eq.mpr hregex]

end TurboServe.Canary
