import Espreso.Lib.Process
import Espreso.Basis.AllToAll
import Espreso.Basis.Balance
import Espreso.Constraints.Assemble
import Espreso.Solver.Lambdas
import Espreso.Lib.Numbered
import Espreso.Lib.Saddle
import Espreso.Lib.Tree
import Espreso.Solver.Cluster
import Espreso.Solver.ClusterMatrices
import Espreso.Solver.ClusterSolves
import Espreso.Solver.KernelCorrection
import Espreso.Lib.Bytes
import Espreso.Lib.Loop
import Espreso.LoadStep.LineSearch
import Espreso.LoadStep.RejectedStep
import Espreso.LoadStep.StoreSolution
import Espreso.Mesh.DataTransfer
import Espreso.Assembler.Physics
import Espreso.Input.Block
import Espreso.Input.Grid
import Espreso.Solver.CoarseProblem
import Espreso.Solver.ConjCoarse
import Espreso.Solver.Projector
import Espreso.Input.HilbertCurve
import Espreso.Input.LinkupNeighbors
import Espreso.Input.ClusterizeBorders
import Espreso.Input.MPILoader
import Espreso.Input.MPIAlign
import Espreso.Input.WorkbenchScan
import Espreso.Input.CMBlock
import Espreso.Input.CM
import Espreso.Input.EBlockRanks
import Espreso.Input.BalanceElements
import Espreso.Lib.BitTable
import Espreso.Lib.Reorder
import Espreso.Lib.Runs
import Espreso.Mesh.ElementRegions
import Espreso.Mesh.RegionsIntersection
import Espreso.Basis.Permute
import Espreso.Basis.InplaceMerge
import Espreso.Basis.NodeColor
import Espreso.Basis.ThreadBalance
import Espreso.Basis.BoundaryBalance
import Espreso.Basis.SerializedData
import Espreso.Basis.VariousTargets
import Espreso.Basis.CallSequence
import Espreso.Input.SortNodes
import Espreso.Mesh.ComponentGraphs
import Espreso.Mesh.BoundaryIntervals
import Espreso.Mesh.Domains
import Espreso.Mesh.LinkNodes
import Espreso.Mesh.PermuteElements
import Espreso.Input.NamelessSets
import Espreso.Input.BalanceNodes
import Espreso.Mesh.CornerNodes
import Espreso.Input.IsSorted
import Espreso.Mesh.ElementNeighbors
import Espreso.Mesh.Halo
import Espreso.Mesh.BoundaryElements
import Espreso.Mesh.BoundaryNodes
import Espreso.Mesh.DomainsSurface
import Espreso.Config.Tokenizer
import Espreso.Input.BuildElements
import Espreso.Input.DanglingNodes
import Espreso.Constraints.DuplicityRuns
import Espreso.Constraints.Kernels
import Espreso.Solver.CreateF0
import Espreso.Solver.VecD
import Espreso.Solver.CreateG
import Espreso.Assembler.MaterialMatrix
import Espreso.Solver.Diagonal
import Espreso.Solver.MatMatT
import Espreso.Basis.TableInterpolation
import Espreso.Solver.NullPivots
import Espreso.Solver.RegCG
import Espreso.Solver.DirichletPrec
import Espreso.Solver.KernelFromK
import Espreso.Assembler.StructuralMechanics
import Espreso.Assembler.MassInsertion
import Espreso.Assembler.SumSquares
import Espreso.Assembler.MatrixMask
import Espreso.LoadStep.GluedSystem
import Espreso.LoadStep.NewtonRaphson
import Espreso.Assembler.BoundaryHeat
