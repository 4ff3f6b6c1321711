import VoxelEdit.Block.Entry
import VoxelEdit.Block.Registry
import VoxelEdit.Block.State
import VoxelEdit.Block.Turn
import VoxelEdit.Clipboard.Basic
import VoxelEdit.Clipboard.Capture
import VoxelEdit.Clipboard.Snapshot
import VoxelEdit.Clipboard.Turn
import VoxelEdit.Config.Basic
import VoxelEdit.Config.Text
import VoxelEdit.Expr.Basic
import VoxelEdit.Expr.Compiled
import VoxelEdit.Expr.Eval
import VoxelEdit.Expr.Functions
import VoxelEdit.Expr.Parser
import VoxelEdit.Expr.Variables
import VoxelEdit.Grid.Axis
import VoxelEdit.Grid.Box
import VoxelEdit.Grid.Line
import VoxelEdit.Grid.Pos
import VoxelEdit.Grid.Tags
import VoxelEdit.Json.Parser
import VoxelEdit.Json.Value
import VoxelEdit.Nbt.Binary
import VoxelEdit.Nbt.Show
import VoxelEdit.Nbt.Tag
import VoxelEdit.Nbt.Text
import VoxelEdit.Number.Binary
import VoxelEdit.Number.Decimal
import VoxelEdit.Number.Width
import VoxelEdit.Overlay.Canvas
import VoxelEdit.Overlay.Color
import VoxelEdit.Pattern.Basic
import VoxelEdit.Pattern.Descriptor
import VoxelEdit.Pattern.Error
import VoxelEdit.Pattern.Matching
import VoxelEdit.Pattern.Parser
import VoxelEdit.Pattern.Sample
import VoxelEdit.Pattern.Token
import VoxelEdit.Pattern.Weighted
import VoxelEdit.Player.Click
import VoxelEdit.Player.Id
import VoxelEdit.Player.Registry
import VoxelEdit.Player.Store
import VoxelEdit.Proofs.AxisEnds
import VoxelEdit.Proofs.BinaryTags
import VoxelEdit.Proofs.BlockTurns
import VoxelEdit.Proofs.BoxIndex
import VoxelEdit.Proofs.BoxShapes
import VoxelEdit.Proofs.BoxWalk
import VoxelEdit.Proofs.BracedText
import VoxelEdit.Proofs.ByteBraces
import VoxelEdit.Proofs.ByteLexer
import VoxelEdit.Proofs.ByteScans
import VoxelEdit.Proofs.ByteTokens
import VoxelEdit.Proofs.CanonicalRegion
import VoxelEdit.Proofs.ClickTrace
import VoxelEdit.Proofs.ClipboardCells
import VoxelEdit.Proofs.ClipboardLedger
import VoxelEdit.Proofs.ClipboardMoves
import VoxelEdit.Proofs.ClipboardPalette
import VoxelEdit.Proofs.ClipboardTiling
import VoxelEdit.Proofs.ColorText
import VoxelEdit.Proofs.CompoundFields
import VoxelEdit.Proofs.ConsistentSelection
import VoxelEdit.Proofs.Contraction
import VoxelEdit.Proofs.ConvexHull
import VoxelEdit.Proofs.ConvexOutline
import VoxelEdit.Proofs.CopyPaste
import VoxelEdit.Proofs.CrossProduct
import VoxelEdit.Proofs.CurrentRegion
import VoxelEdit.Proofs.Descent
import VoxelEdit.Proofs.DescentAnswers
import VoxelEdit.Proofs.DescentBounds
import VoxelEdit.Proofs.DescentMoves
import VoxelEdit.Proofs.DescentScans
import VoxelEdit.Proofs.DescentSteps
import VoxelEdit.Proofs.DoubleRadius
import VoxelEdit.Proofs.EditExact
import VoxelEdit.Proofs.EditOutcome
import VoxelEdit.Proofs.ExactReading
import VoxelEdit.Proofs.FailedEdit
import VoxelEdit.Proofs.FixedWidth
import VoxelEdit.Proofs.FormulaReading
import VoxelEdit.Proofs.FreshSampling
import VoxelEdit.Proofs.HullPlanes
import VoxelEdit.Proofs.HullSeparation
import VoxelEdit.Proofs.HullWidth
import VoxelEdit.Proofs.LabelCounts
import VoxelEdit.Proofs.LiveDrawings
import VoxelEdit.Proofs.LoadedIndexing
import VoxelEdit.Proofs.MatchingPlaced
import VoxelEdit.Proofs.NoUpdateLost
import VoxelEdit.Proofs.OutlineRing
import VoxelEdit.Proofs.OutlineSides
import VoxelEdit.Proofs.OutlineSymmetry
import VoxelEdit.Proofs.OutlineWidth
import VoxelEdit.Proofs.PairedText
import VoxelEdit.Proofs.ParsedTerms
import VoxelEdit.Proofs.PatternReading
import VoxelEdit.Proofs.PickedPositions
import VoxelEdit.Proofs.PlayerKeys
import VoxelEdit.Proofs.PolygonBox
import VoxelEdit.Proofs.ProperShapes
import VoxelEdit.Proofs.QuarterTurn
import VoxelEdit.Proofs.RedoAfterEdit
import VoxelEdit.Proofs.RefusedSelection
import VoxelEdit.Proofs.RegionSound
import VoxelEdit.Proofs.RegionWalk
import VoxelEdit.Proofs.ResizedCorners
import VoxelEdit.Proofs.RestoredSnapshot
import VoxelEdit.Proofs.Separation
import VoxelEdit.Proofs.SessionReach
import VoxelEdit.Proofs.SessionRoundTrip
import VoxelEdit.Proofs.ShiftedRegion
import VoxelEdit.Proofs.SnapshotRoundTrip
import VoxelEdit.Proofs.SphereResize
import VoxelEdit.Proofs.SteadySampling
import VoxelEdit.Proofs.StoredBlock
import VoxelEdit.Proofs.StoredClipboard
import VoxelEdit.Proofs.StoredGeometry
import VoxelEdit.Proofs.StoredRegion
import VoxelEdit.Proofs.StoredSession
import VoxelEdit.Proofs.TilingText
import VoxelEdit.Proofs.Timeline
import VoxelEdit.Proofs.TreeForms
import VoxelEdit.Proofs.TreeHeight
import VoxelEdit.Proofs.TreeReading
import VoxelEdit.Proofs.TurnLaws
import VoxelEdit.Proofs.VoxelLine
import VoxelEdit.Proofs.WalkNumbers
import VoxelEdit.Proofs.WeightedDraw
import VoxelEdit.Proofs.WorldView
import VoxelEdit.Region.Basic
import VoxelEdit.Region.Convex
import VoxelEdit.Region.Cuboid
import VoxelEdit.Region.Expand
import VoxelEdit.Region.Hull
import VoxelEdit.Region.Kind
import VoxelEdit.Region.Polygon
import VoxelEdit.Region.Radius
import VoxelEdit.Region.Sphere
import VoxelEdit.Region.Tags
import VoxelEdit.Session.Basic
import VoxelEdit.Session.Edit
import VoxelEdit.Session.Tags
import VoxelEdit.Text.Blank
import VoxelEdit.Text.Bytes
import VoxelEdit.Text.Class
import VoxelEdit.World.Basic
import VoxelEdit.World.History
import VoxelEdit.World.Stats
import VoxelEdit.Zlib.Inflate
import VoxelEdit.Zlib.Prefixed
import VoxelEdit.Zlib.Wrapped
