/-!
Keyword arguments: every keyword once, in the order of their first mention.
-/

namespace IndentedText.Code

structure Keywords where
  entries : List (String × String)
  nodup : (entries.map Prod.fst).Nodup
  deriving DecidableEq

namespace Keywords

def empty : Keywords :=
  ⟨[], List.nodup_nil⟩

def assign (key value : String) (entries : List (String × String)) : List (String × String) :=
  if key ∈ entries.map Prod.fst then
    entries.map fun entry => if entry.1 = key then (key, value) else entry
  else entries ++ [(key, value)]

theorem keys_assign (key value : String) (entries : List (String × String)) :
    (assign key value entries).map Prod.fst =
      if key ∈ entries.map Prod.fst then entries.map Prod.fst
      else entries.map Prod.fst ++ [key] := by
  unfold assign
  split
  · rw [List.map_map]
    apply List.map_congr_left
    intro entry _
    by_cases h : entry.1 = key <;> simp [h]
  · simp

def insert (keywords : Keywords) (key value : String) : Keywords where
  entries := assign key value keywords.entries
  nodup := by
    rw [keys_assign]
    split
    · exact keywords.nodup
    · rename_i fresh
      rw [List.nodup_append]
      refine ⟨keywords.nodup, by simp, fun a inside b last same => ?_⟩
      rw [List.mem_singleton] at last
      exact fresh (last ▸ same ▸ inside)

/-- A keyword mentioned again keeps its place and takes the later value. -/
def ofList (entries : List (String × String)) : Keywords :=
  entries.foldl (fun keywords entry => keywords.insert entry.1 entry.2) empty

def arguments (keywords : Keywords) : List String :=
  keywords.entries.map fun entry => entry.1 ++ "=" ++ entry.2

end Keywords

end IndentedText.Code
