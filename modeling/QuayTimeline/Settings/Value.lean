import QuayTimeline.Members

/-! # Setting values

What a settings file or the environment can hold. Values from several places are merged:
tables entry by entry, and of two other values the later one counts. -/

namespace QuayTimeline

/-- A value of a setting. Numbers that are no integers are told apart, but not kept, as no
setting takes one. -/
inductive Setting where
  | bool (b : Bool)
  | integer (n : Int)
  | real
  | text (s : String)
  | list (items : List Setting)
  | table (entries : List (String × Setting))

namespace Setting

/-- The entries of a table; another value has none. -/
def entries : Setting → Members Setting
  | table entries => entries
  | _ => []

mutual

def merge (earlier : Setting) : Setting → Setting
  | .table entries => .table (mergeEntries earlier.entries entries)
  | later => later

/-- Entries with later ones merged into them. -/
def mergeEntries (earlier : Members Setting) : List (String × Setting) → Members Setting
  | [] => earlier
  | (name, later) :: rest =>
    let merged := merge ((earlier.lookup name).getD (.table [])) later
    mergeEntries (Members.put name merged earlier) rest

end

end Setting

end QuayTimeline
