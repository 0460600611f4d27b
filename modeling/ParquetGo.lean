import ParquetGo.Reflect
import ParquetGo.Node
import ParquetGo.Traverse
import ParquetGo.Tag
import ParquetGo.Build
import ParquetGo.Paths
import ParquetGo.Proofs.Refinement
import ParquetGo.Proofs.Compile
import ParquetGo.Proofs.Columns
import ParquetGo.Proofs.PathShape
import ParquetGo.Proofs.Levels
import ParquetGo.Proofs.Depth
import ParquetGo.Proofs.Names
import ParquetGo.Proofs.Shapes
import ParquetGo.Proofs.Options
import ParquetGo.Proofs.Termination
import ParquetGo.Proofs.Embedded
import ParquetGo.Proofs.Pipeline
import ParquetGo.Proofs.Cardinalities
import ParquetGo.Proofs.Records
import ParquetGo.Proofs.Tags
import ParquetGo.Proofs.Dense
import ParquetGo.Proofs.Safety
