import NetProjects.Library.CString

/-!
# Tokens

The pieces of a text between its delimiters, the empty ones left out, and `strtok_r`, which finds
them one after the other.
-/

namespace NetProjects.Bytes

section

variable {α : Type} {isDelim : α → Bool} {skip token text more : List α} {d : α}

def tokens (isDelim : α → Bool) (text : List α) : List (List α) :=
  (text.splitOnP isDelim).filter fun token => !token.isEmpty

/-- The text up to the end of its first token. -/
def throughFirst (isDelim : α → Bool) (text : List α) : List α :=
  text.takeWhile isDelim ++ (text.dropWhile isDelim).takeWhile fun c => !isDelim c

theorem tokens_append (delim : isDelim d = true) (xs ys : List α) :
    tokens isDelim (xs ++ d :: ys) = tokens isDelim xs ++ tokens isDelim ys := by
  unfold tokens
  rw [List.splitOnP_append_cons xs ys delim, List.filter_append]

theorem tokens_singleton (inside : ∀ c ∈ token, isDelim c = false) (nonempty : token ≠ []) :
    tokens isDelim token = [token] := by
  unfold tokens
  rw [List.splitOnP_eq_singleton inside]
  simp [nonempty]

theorem tokens_skip (delims : ∀ c ∈ skip, isDelim c = true) (text : List α) :
    tokens isDelim (skip ++ text) = tokens isDelim text := by
  induction skip with
  | nil => rfl
  | cons d skip ih =>
    obtain ⟨delim, delims⟩ := List.forall_mem_cons.mp delims
    have first : tokens isDelim (d :: (skip ++ text)) = tokens isDelim [] ++ tokens isDelim (skip ++ text) :=
      tokens_append delim [] _
    rw [List.cons_append, first, ih delims]
    rfl

/-- A text is delimiters only, or it has a first token, which is followed by nothing or by a delimiter. -/
theorem tokens_cases (isDelim : α → Bool) (text : List α) :
    (∀ c ∈ text, isDelim c = true) ∨
      ∃ skip token more, text = skip ++ token ++ more ∧ (∀ c ∈ skip, isDelim c = true) ∧
        (∀ c ∈ token, isDelim c = false) ∧ token ≠ [] ∧ (more = [] ∨ ∃ d rest, more = d :: rest ∧ isDelim d = true) := by
  have skipped : ∀ c ∈ text.takeWhile isDelim, isDelim c = true := fun c => List.mem_takeWhile_imp
  have whole : text.takeWhile isDelim ++ text.dropWhile isDelim = text := List.takeWhile_append_dropWhile
  cases first : text.dropWhile isDelim with
  | nil =>
    rw [first, List.append_nil] at whole
    exact Or.inl (whole ▸ skipped)
  | cons c others =>
    have notDelim : isDelim c = false := by
      have stop := List.head?_dropWhile_not isDelim text
      rw [first] at stop
      exact stop
    refine Or.inr ⟨_, (c :: others).takeWhile fun c => !isDelim c, (c :: others).dropWhile fun c => !isDelim c, ?_,
      skipped, ?_, ?_, ?_⟩
    · rw [List.append_assoc, List.takeWhile_append_dropWhile, ← first, whole]
    · intro x member
      have inside := List.mem_takeWhile_imp member
      exact Bool.not_eq_true' _ ▸ inside
    · rw [List.takeWhile_cons_of_pos (by rw [notDelim]; rfl)]
      exact List.cons_ne_nil _ _
    · cases next : (c :: others).dropWhile fun c => !isDelim c with
      | nil => exact Or.inl rfl
      | cons d rest =>
        have stop := List.head?_dropWhile_not (fun c => !isDelim c) (c :: others)
        rw [next] at stop
        exact Or.inr ⟨d, rest, rfl, by simpa using stop⟩

theorem tokens_eq_nil (none : tokens isDelim text = []) : ∀ c ∈ text, isDelim c = true := by
  obtain delims | ⟨skip, token, more, rfl, delims, inside, nonempty, rfl | ⟨d, rest, rfl, delim⟩⟩ := tokens_cases isDelim text
  · exact delims
  · rw [List.append_nil, tokens_skip delims, tokens_singleton inside nonempty] at none
    cases none
  · rw [tokens_append delim, tokens_skip delims, tokens_singleton inside nonempty] at none
    cases none

/-- The first token, and the text that has the others. -/
theorem tokens_eq_cons {others : List (List α)} (some : tokens isDelim text = token :: others) :
    ∃ skip more, text = skip ++ token ++ more ∧ (∀ c ∈ skip, isDelim c = true) ∧
      (∀ c ∈ token, isDelim c = false) ∧ token ≠ [] ∧
        (more = [] ∧ others = [] ∨ ∃ d rest, more = d :: rest ∧ isDelim d = true ∧ tokens isDelim rest = others) := by
  obtain delims | ⟨skip, first, more, rfl, delims, inside, nonempty, rfl | ⟨d, rest, rfl, delim⟩⟩ := tokens_cases isDelim text
  · have none : tokens isDelim (text ++ []) = tokens isDelim [] := tokens_skip delims []
    rw [List.append_nil, some] at none
    cases none
  · rw [List.append_nil, tokens_skip delims, tokens_singleton inside nonempty] at some
    obtain ⟨rfl, rfl⟩ := List.cons.inj some
    exact ⟨skip, [], rfl, delims, inside, nonempty, Or.inl ⟨rfl, rfl⟩⟩
  · rw [tokens_append delim, tokens_skip delims, tokens_singleton inside nonempty] at some
    obtain ⟨rfl, rfl⟩ := List.cons.inj some
    exact ⟨skip, d :: rest, rfl, delims, inside, nonempty, Or.inr ⟨d, rest, rfl, delim, rfl⟩⟩

theorem infix_of_mem_tokens (member : token ∈ tokens isDelim text) : token <:+: text := by
  generalize pieces : tokens isDelim text = all at member
  induction all generalizing text with
  | nil => cases member
  | cons first others ih =>
    obtain ⟨skip, more, rfl, _, _, _, rest⟩ := tokens_eq_cons pieces
    obtain rfl | later := List.mem_cons.mp member
    · exact ⟨skip, more, rfl⟩
    obtain ⟨_, rfl⟩ | ⟨d, rest, rfl, _, pieces⟩ := rest
    · cases later
    · exact (ih pieces later).trans ⟨skip ++ first ++ [d], [], by simp⟩

theorem length_tokens_le (isDelim : α → Bool) (text : List α) : (tokens isDelim text).length ≤ text.length := by
  generalize pieces : tokens isDelim text = all
  induction all generalizing text with
  | nil => exact Nat.zero_le _
  | cons first others ih =>
    obtain ⟨skip, more, rfl, _, _, nonempty, rest⟩ := tokens_eq_cons pieces
    have long := List.length_pos_iff.mpr nonempty
    simp only [List.length_append, List.length_cons]
    obtain ⟨rfl, rfl⟩ | ⟨d, rest, rfl, _, pieces⟩ := rest
    · simp only [List.length_nil]
      omega
    · have less := ih rest pieces
      simp only [List.length_cons]
      omega

theorem throughFirst_eq (delims : ∀ c ∈ skip, isDelim c = true) (inside : ∀ c ∈ token, isDelim c = false)
    (nonempty : token ≠ []) (ended : more = [] ∨ ∃ d rest, more = d :: rest ∧ isDelim d = true) :
    throughFirst isDelim (skip ++ token ++ more) = skip ++ token := by
  obtain ⟨c, others, rfl⟩ := List.exists_cons_of_ne_nil nonempty
  have notDelim := inside c List.mem_cons_self
  have skipped : (skip ++ (c :: others ++ more)).takeWhile isDelim = skip := by
    rw [List.takeWhile_append_of_pos delims, List.cons_append, List.takeWhile_cons_of_neg (by simp [notDelim]),
      List.append_nil]
  have left : (skip ++ (c :: others ++ more)).dropWhile isDelim = c :: others ++ more := by
    rw [List.dropWhile_append_of_pos delims, List.cons_append, List.dropWhile_cons_of_neg (by simp [notDelim])]
  have found : (c :: others ++ more).takeWhile (fun c => !isDelim c) = c :: others := by
    rw [List.takeWhile_append_of_pos fun x member => by simp [inside x member]]
    obtain rfl | ⟨d, rest, rfl, delim⟩ := ended
    · rw [List.takeWhile_nil, List.append_nil]
    · rw [List.takeWhile_cons_of_neg (by simp [delim]), List.append_nil]
  unfold throughFirst
  rw [List.append_assoc, skipped, left, found]

theorem throughFirst_start (isDelim : α → Bool) (text : List α) : throughFirst isDelim text <+: text := by
  refine ⟨(text.dropWhile isDelim).dropWhile fun c => !isDelim c, ?_⟩
  unfold throughFirst
  rw [List.append_assoc, List.takeWhile_append_dropWhile, List.takeWhile_append_dropWhile]

/-- A first token that ends inside the text does not depend on what follows. -/
theorem throughFirst_append (delim : isDelim d = true) {text : List α} (first : tokens isDelim text ≠ [])
    (rest : List α) : throughFirst isDelim (text ++ d :: rest) = throughFirst isDelim text := by
  obtain delims | ⟨skip, token, more, rfl, delims, inside, nonempty, ended⟩ := tokens_cases isDelim text
  · have none : tokens isDelim (text ++ []) = tokens isDelim [] := tokens_skip delims []
    rw [List.append_nil] at none
    exact absurd none first
  · rw [throughFirst_eq delims inside nonempty ended, List.append_assoc, throughFirst_eq delims inside nonempty]
    obtain rfl | ⟨e, others, rfl, other⟩ := ended
    · exact Or.inr ⟨d, rest, rfl, delim⟩
    · exact Or.inr ⟨e, others ++ d :: rest, rfl, other⟩

end

/-- The last token ends at the terminator, where the search goes on. -/
theorem strtokR_last {isDelim : UInt8 → Bool} {done skip token : List UInt8} (delims : ∀ c ∈ skip, isDelim c = true)
    (inside : ∀ c ∈ token, c ≠ 0 ∧ isDelim c = false) (nonempty : token ≠ []) (rest : List UInt8) :
    strtokR isDelim (done ++ skip ++ token ++ 0 :: rest) done.length =
      some { token := token, buf := done ++ skip ++ token ++ 0 :: rest, save := (done ++ skip ++ token).length } := by
  obtain ⟨t, ts, rfl⟩ := List.exists_cons_of_ne_nil nonempty
  have skipped : ((done ++ skip ++ t :: ts ++ 0 :: rest).drop done.length).takeWhile isDelim = skip := by
    rw [List.append_assoc, List.append_assoc, List.drop_left]
    exact takeWhile_stop delims (inside t List.mem_cons_self).2 _
  have here : (done ++ skip ++ t :: ts ++ 0 :: rest).drop (done.length + skip.length) = t :: ts ++ 0 :: rest := by
    rw [List.append_assoc, ← List.length_append, List.drop_left]
  have found : (t :: ts ++ 0 :: rest).takeWhile (fun c => decide (c ≠ 0 ∧ ¬ isDelim c = true)) = t :: ts := by
    refine takeWhile_stop (fun c member => ?_) (by simp) rest
    obtain ⟨notZero, other⟩ := inside c member
    simp [notZero, other]
  have place : done.length + skip.length + (t :: ts).length = (done ++ skip ++ t :: ts).length := by
    simp only [List.length_append]
  unfold strtokR
  dsimp only
  rw [skipped, here, found, if_neg (List.cons_ne_nil t ts), place, List.getD_append_right _ _ _ _ (Nat.le_refl _),
    Nat.sub_self, List.getD_cons_zero, if_pos rfl]

/-- One call: the first token, and where the others are. The string that the buffer shows ends with the first
token of all. -/
theorem strtokR_tokens {isDelim : UInt8 → Bool} {text token : List UInt8}
    {others : List (List UInt8)} (noNul : 0 ∉ text) (first : tokens isDelim text = token :: others)
    (done rest : List UInt8) :
    ∃ done' text', strtokR isDelim (done ++ text ++ 0 :: rest) done.length =
        some { token := token, buf := done' ++ text' ++ 0 :: rest, save := done'.length } ∧
      tokens isDelim text' = others ∧ 0 ∉ text' ∧ text'.length ≤ text.length ∧
      cstring (done' ++ text' ++ 0 :: rest) = cstring (done ++ throughFirst isDelim text) ∧
      cstring (done' ++ throughFirst isDelim text') = cstring (done ++ throughFirst isDelim text) := by
  obtain ⟨skip, more, rfl, delims, inside, nonempty, next⟩ := tokens_eq_cons first
  rw [List.mem_append, List.mem_append, not_or, not_or] at noNul
  have letters : ∀ c ∈ token, c ≠ 0 ∧ isDelim c = false := fun c member =>
    ⟨fun zero => noNul.1.2 (zero ▸ member), inside c member⟩
  obtain ⟨rfl, rfl⟩ | ⟨d, text', rfl, delim, rfl⟩ := next
  · refine ⟨done ++ skip ++ token, [], ?_, rfl, List.not_mem_nil, Nat.zero_le _, ?_, ?_⟩
    · have last : strtokR isDelim (done ++ skip ++ token ++ 0 :: rest) done.length =
          some ⟨token, done ++ skip ++ token ++ 0 :: rest, (done ++ skip ++ token).length⟩ :=
        strtokR_last delims letters nonempty rest
      simpa using last
    · rw [throughFirst_eq delims inside nonempty (Or.inl rfl), List.append_nil, cstring_append_nul, List.append_assoc]
    · rw [throughFirst_eq delims inside nonempty (Or.inl rfl), List.append_assoc done]
      exact congrArg cstring (List.append_nil _)
  · have notNul : d ≠ 0 := fun zero => noNul.2 (zero ▸ List.mem_cons_self)
    have ended : throughFirst isDelim (skip ++ token ++ d :: text') = skip ++ token :=
      throughFirst_eq delims inside nonempty (Or.inr ⟨d, text', rfl, delim⟩)
    have marked : ∀ more, cstring (done ++ skip ++ token ++ [0] ++ more) = cstring (done ++ (skip ++ token)) := by
      intro more
      rw [List.append_assoc _ [0], List.singleton_append, cstring_append_nul, List.append_assoc]
    refine ⟨done ++ skip ++ token ++ [0], text', ?_, rfl, fun member => noNul.2 (List.mem_cons_of_mem _ member), ?_, ?_,
      ?_⟩
    · have found : strtokR isDelim (done ++ skip ++ token ++ d :: (text' ++ 0 :: rest)) done.length =
          some ⟨token, done ++ skip ++ token ++ 0 :: (text' ++ 0 :: rest), (done ++ skip ++ token).length + 1⟩ :=
        strtokR_token delims letters nonempty delim notNul (text' ++ 0 :: rest)
      simpa [Nat.add_assoc] using found
    · simp only [List.length_append, List.length_cons]
      omega
    · rw [ended, List.append_assoc _ text', marked]
    · rw [ended, marked]

end NetProjects.Bytes
