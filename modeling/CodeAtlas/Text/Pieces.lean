/-!
Cutting a text at a character or at a fixed word, and looking for such a word.
-/

namespace CodeAtlas.Text

/-- The pieces between the places where a separator stands, empty ones included. -/
def splitOn (sep : Char) : List Char → List (List Char)
  | [] => [[]]
  | c :: rest =>
    if c == sep then [] :: splitOn sep rest
    else
      match splitOn sep rest with
      | [] => [[c]]
      | piece :: pieces => (c :: piece) :: pieces

/-- What follows `word` at the start of a text, if the text starts with it. -/
def dropWord? : (word text : List Char) → Option (List Char)
  | [], text => some text
  | _ :: _, [] => none
  | w :: word, c :: text => if w == c then dropWord? word text else none

theorem length_of_dropWord? {word text rest : List Char} (h : dropWord? word text = some rest) :
    text.length = word.length + rest.length := by
  induction word generalizing text with
  | nil => simp_all [dropWord?]
  | cons w word ih =>
    cases text with
    | nil => simp [dropWord?] at h
    | cons c text =>
      simp only [dropWord?] at h
      split at h
      · have := ih h
        simp only [List.length_cons]
        omega
      · simp at h

/-- What precedes and what follows the first place where `word` stands in a text. -/
def cutAt? (word : List Char) : List Char → Option (List Char × List Char)
  | [] => (dropWord? word []).map fun rest => ([], rest)
  | c :: text =>
    match dropWord? word (c :: text) with
    | some rest => some ([], rest)
    | none => (cutAt? word text).map fun p => (c :: p.1, p.2)

/-- A text with every occurrence of `word`, read from the left, exchanged for one character. -/
def replaceWord (word : List Char) (c : Char) : List Char → List Char
  | [] => []
  | d :: text =>
    match _ : dropWord? word (d :: text) with
    | some rest =>
      if word.isEmpty then d :: replaceWord word c text else c :: replaceWord word c rest
    | none => d :: replaceWord word c text
termination_by text => text.length
decreasing_by
  · simp
  · have := length_of_dropWord? ‹_›
    cases word
    · simp_all
    · simp only [List.length_cons] at this ⊢
      omega
  · simp

/-- What precedes `word` at the end of a text, if the text ends with it. -/
def dropEndWord? (word text : List Char) : Option (List Char) :=
  (dropWord? word.reverse text.reverse).map List.reverse

/-- What precedes and what follows the last place where a character stands. -/
def cutAtLast? (sep : Char) (text : List Char) : Option (List Char × List Char) :=
  match text.reverse.dropWhile (· != sep) with
  | [] => none
  | _ :: before => some (before.reverse, (text.reverse.takeWhile (· != sep)).reverse)

end CodeAtlas.Text
