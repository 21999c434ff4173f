import ShaderInterface.Link.Budget
import ShaderInterface.Link.Program
import ShaderInterface.Padding
import ShaderInterface.Serial.Declaration
import ShaderInterface.Serial.Table
import ShaderInterface.Proofs.Unbounded
import ShaderInterface.Proofs.UnboundedWalk
import ShaderInterface.Proofs.Std140
import ShaderInterface.Proofs.PaddedBlock
import ShaderInterface.Proofs.Components
import ShaderInterface.Proofs.LinkedLeaves
import ShaderInterface.Proofs.RegisterWindows
import ShaderInterface.Proofs.LeafSpans
import ShaderInterface.Proofs.StageSpans
import ShaderInterface.Proofs.RegisterBudget
import ShaderInterface.Proofs.EntryKinds
import ShaderInterface.Proofs.BlockRuns
import ShaderInterface.Proofs.BlockSlots
import ShaderInterface.Proofs.LeafNames
import ShaderInterface.Proofs.OversizedLayout
import ShaderInterface.Proofs.StageMerge
import ShaderInterface.Proofs.LayoutSize
import ShaderInterface.Proofs.Relinking
import ShaderInterface.Proofs.StageOrder
import ShaderInterface.Proofs.LeastPlace
import ShaderInterface.Proofs.WalkEnds
import ShaderInterface.Proofs.Flattening
import ShaderInterface.Proofs.ElementStride
import ShaderInterface.Proofs.LooseCounts
import ShaderInterface.Proofs.RegisterTiling
import ShaderInterface.Proofs.BindOutcome
import ShaderInterface.Proofs.FirstViolation
import ShaderInterface.Proofs.LimitOverflow
import ShaderInterface.Proofs.LeafIdentity
import ShaderInterface.Proofs.RefusedShapes
import ShaderInterface.Proofs.UnusedBlocks
import ShaderInterface.Proofs.FillerNames
import ShaderInterface.Proofs.ElementIndex
import ShaderInterface.Proofs.RegisterShift
import ShaderInterface.Proofs.SerialForms
