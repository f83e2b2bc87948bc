import LayerPick.Failure

/-!
# Images

An image is a row of layers, the base layer first. A layer describes itself and can be opened as a
stream of its unpacked tar archive.
-/
namespace LayerPick

structure Layer where
  description : String
  /-- A fresh stream of the layer's tar archive. -/
  openLayer : Except Failure Source

structure Image where
  /-- The layers, the base layer first. -/
  layers : Except Failure (List Layer)

end LayerPick
