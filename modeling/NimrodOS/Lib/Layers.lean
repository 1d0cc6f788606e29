/-! Layers with holes, laid one on the other over a ground: at each place the last layer
that has something there is seen. -/
namespace Layers

abbrev Layer (α β : Type) := α → Option β

variable {α β : Type}

def cover (ground : α → β) (layer : Layer α β) : α → β := fun x => (layer x).getD (ground x)

def paint (ground : α → β) (layers : List (Layer α β)) : α → β := layers.foldl cover ground

variable {ground : α → β} {layer : Layer α β} {layers above below : List (Layer α β)} {x : α} {b : β}

@[simp] theorem paint_nil : paint ground [] = ground := rfl

@[simp] theorem paint_snoc : paint ground (below ++ [layer]) = cover (paint ground below) layer := by
  simp [paint]

theorem paint_clear (clear : ∀ layer ∈ layers, layer x = none) : paint ground layers x = ground x := by
  induction layers generalizing ground with
  | nil => rfl
  | cons layer above ih =>
    rw [List.forall_mem_cons] at clear
    exact (ih clear.2).trans (congrArg (Option.getD · (ground x)) clear.1)

theorem paint_top (there : layer x = some b) (clear : ∀ layer ∈ above, layer x = none) :
    paint ground (below ++ layer :: above) x = b := by
  have last : paint (cover (paint ground below) layer) above x = cover (paint ground below) layer x :=
    paint_clear clear
  simp only [paint,List.foldl_append,List.foldl_cons] at last ⊢
  rw [last]
  simp [cover,there]

end Layers
